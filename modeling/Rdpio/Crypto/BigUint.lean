import Mathlib.Tactic.LinearCombination
import Rdpio.Lib.Bytes
import Rdpio.Lib.Checked
import Rdpio.Lib.Chunks
import Rdpio.Lib.Words

/-!
# Big numbers

`crates/rdp-crypto/src/bignum.rs` and `rsa.rs`: numbers of 32-bit limbs, the lowest first, and as much
arithmetic as RSA takes.
-/

namespace Rdpio.Crypto

open Lib (val word)

/-- A number has no zero limb at its end. -/
structure BigUint where
  limbs : List UInt32
  normal : limbs.getLast? ≠ some 0
deriving DecidableEq

def int64 (n : ℤ) : Option ℤ := if -2^63 ≤ n ∧ n < 2^63 then some n else none

namespace BigUint

def value (x : BigUint) : ℕ := val x.limbs

def normalize (limbs : List UInt32) : BigUint :=
  ⟨limbs.rdropWhile (· == 0), by
    intro h
    obtain ⟨hne, hlast⟩ := List.mem_getLast?_eq_getLast h
    have hnot := List.rdropWhile_last_not (· == 0) limbs hne
    simp [← hlast] at hnot⟩

def zero : BigUint := ⟨[], by simp⟩

def fromU32 (v : UInt32) : BigUint := normalize [v]

def isZero (x : BigUint) : Bool := x.limbs.isEmpty

def limbOf (chunk : List UInt8) : UInt32 :=
  (chunk.zipIdx.foldl (fun v p => v ||| p.1.toNat <<< (8 * p.2)) 0 : ℕ) |> UInt32.ofNat

def fromBytesLe (bytes : List UInt8) : BigUint := normalize ((Lib.chunks 4 bytes).map limbOf)

def toBytesLe (x : BigUint) (len : ℕ) : List UInt8 :=
  ((x.limbs.flatMap fun limb : UInt32 => Lib.leBytes 4 limb.toNat) ++ List.replicate len 0).take len

def cmpFrom (a b : List UInt32) : ℕ → Option Ordering
  | 0 => some .eq
  | i + 1 => do
    let x ← a[i]?
    let y ← b[i]?
    if x ≠ y then some (compare x.toNat y.toNat) else cmpFrom a b i

def cmp (a b : BigUint) : Option Ordering :=
  if a.limbs.length ≠ b.limbs.length then some (compare a.limbs.length b.limbs.length)
  else cmpFrom a.limbs b.limbs a.limbs.length

def leadingZeros (v : UInt32) : ℕ := 32 - v.toNat.size

def bitLen (x : BigUint) : ℕ :=
  match x.limbs.getLast? with
  | none => 0
  | some top => x.limbs.length * 32 - leadingZeros top

def bit (x : BigUint) (i : ℕ) : Option Bool :=
  if i / 32 < x.limbs.length then do
    let limb ← x.limbs[i / 32]?
    some (((limb.toNat >>> (i % 32)) &&& 1) == 1)
  else some false

def shlFrom (carry : ℕ) : List UInt32 → List UInt32
  | [] => if carry ≠ 0 then [.ofNat carry] else []
  | l :: limbs =>
    let v := (l.toNat <<< 1) ||| carry
    .ofNat v :: shlFrom (v >>> 32) limbs

def shl1 (x : BigUint) : BigUint := normalize (shlFrom 0 x.limbs)

def limbOrZero (other : List UInt32) (i : ℕ) : Option ℤ :=
  if i < other.length then other[i]?.map fun o => (o.toNat : ℤ) else some 0

def wrap (d : ℤ) : Option ℤ := if d < 0 then int64 (d + 2^32) else some d

def subFrom (other : List UInt32) (i : ℕ) (borrow : ℤ) : List UInt32 → Option (List UInt32)
  | [] => some []
  | l :: limbs => do
    let o ← limbOrZero other i
    let less ← int64 (l.toNat - o)
    let d ← int64 (less - borrow)
    let rest ← subFrom other (i + 1) (if d < 0 then 1 else 0) limbs
    let d ← wrap d
    some (.ofNat (d % 2^32).toNat :: rest)

def sub (a b : BigUint) : Option BigUint := (subFrom b.limbs 0 0 a.limbs).map normalize

def mulLimb (a : UInt32) (limbs : List UInt32) (pos carry : ℕ) : List UInt32 → Option (List UInt32 × ℕ)
  | [] => some (limbs, carry)
  | b :: other => do
    let l ← limbs[pos]?
    let product ← word 64 (a.toNat * b.toNat)
    let sum ← word 64 (l.toNat + product)
    let cur ← word 64 (sum + carry)
    let limbs ← Lib.put limbs pos (.ofNat (cur % 2^32))
    mulLimb a limbs (pos + 1) (cur >>> 32) other

def propagate (limbs : List UInt32) (k carry : ℕ) : ℕ → Option (List UInt32)
  | 0 => if carry = 0 then some limbs else none
  | n + 1 =>
    if carry = 0 then some limbs
    else do
      let l ← limbs[k]?
      let cur ← word 64 (l.toNat + carry)
      let limbs ← Lib.put limbs k (.ofNat (cur % 2^32))
      propagate limbs (k + 1) (cur >>> 32) n

def mulFrom (other : List UInt32) (limbs : List UInt32) (i : ℕ) : List UInt32 → Option (List UInt32)
  | [] => some limbs
  | a :: rest => do
    let r ← mulLimb a limbs i 0 other
    let limbs ← propagate r.1 (i + other.length) r.2 (r.1.length - (i + other.length))
    mulFrom other limbs (i + 1) rest

def mul (a b : BigUint) : Option BigUint :=
  if a.isZero || b.isZero then some zero
  else (mulFrom b.limbs (List.replicate (a.limbs.length + b.limbs.length) 0) 0 a.limbs).map normalize

def setLow (x : BigUint) : BigUint :=
  match x with
  | ⟨[], _⟩ => ⟨[1], by decide⟩
  | ⟨l :: limbs, h⟩ => ⟨(l ||| 1) :: limbs, by
    cases limbs with
    | nil =>
      intro hlast
      have hzero : l ||| 1 = 0 := Option.some.inj hlast
      have hone : (l ||| 1).toNat.testBit 0 = true := by simp
      rw [hzero] at hone
      simp at hone
    | cons m limbs => simpa using h⟩

def reduce (rem modulus : BigUint) : Option BigUint := do
  let order ← rem.cmp modulus
  if order ≠ .lt then rem.sub modulus else some rem

def remFrom (self modulus : BigUint) : ℕ → BigUint → Option BigUint
  | 0, rem => some rem
  | i + 1, rem => do
    let set ← self.bit i
    let rem ← reduce (if set then rem.shl1.setLow else rem.shl1) modulus
    remFrom self modulus i rem

def rem (self modulus : BigUint) : Option BigUint := do
  let order ← self.cmp modulus
  if order = .lt then some self else remFrom self modulus self.bitLen zero

def mulRem (a b modulus : BigUint) : Option BigUint := do
  let product ← a.mul b
  product.rem modulus

def powFrom (exp modulus : BigUint) (i : ℕ) : ℕ → BigUint → BigUint → Option BigUint
  | 0, result, _ => some result
  | n + 1, result, base => do
    let set ← exp.bit i
    let result ← cond set (mulRem result base modulus) (some result)
    let base ← mulRem base base modulus
    powFrom exp modulus (i + 1) n result base

def modpow (self exp modulus : BigUint) : Option BigUint :=
  if modulus.isZero then some zero
  else do
    let result ← (fromU32 1).rem modulus
    let base ← self.rem modulus
    powFrom exp modulus 0 exp.bitLen result base

end BigUint

def encryptLe (message modulus exponent : List UInt8) : Option (List UInt8) :=
  ((BigUint.fromBytesLe message).modpow (.fromBytesLe exponent) (.fromBytesLe modulus)).map
    fun c => c.toBytesLe modulus.length

end Rdpio.Crypto

/-! ## The arithmetic is exact -/

namespace Rdpio.Crypto.BigUint

open Lib (val word)

theorem toNat_ofNat_mod (n : ℕ) : (UInt32.ofNat (n % 2^32)).toNat = n % 2^32 := by
  rw [UInt32.toNat_ofNat', Nat.mod_mod]

@[simp]
theorem value_normalize (limbs : List UInt32) : (normalize limbs).value = val limbs := Lib.val_rdropWhile limbs

@[simp]
theorem value_zero : zero.value = 0 := rfl

theorem value_fromU32 (v : UInt32) : (fromU32 v).value = v.toNat := by
  rw [fromU32, value_normalize, Lib.val_cons, Lib.val_nil, Nat.mul_zero, Nat.add_zero]

theorem isZero_iff (x : BigUint) : x.isZero = true ↔ x.value = 0 := by
  rw [isZero, List.isEmpty_iff]
  constructor
  · intro h
    rw [value, h, Lib.val_nil]
  · intro h
    by_contra hne
    have hle := Lib.le_val hne x.normal
    have hpos : 0 < (2^32)^(x.limbs.length - 1) := Nat.pow_pos (by decide)
    rw [value] at h
    omega

theorem val_shlFrom {carry : ℕ} (hcarry : carry ≤ 1) (limbs : List UInt32) :
    val (shlFrom carry limbs) = 2 * val limbs + carry := by
  induction limbs generalizing carry with
  | nil =>
    rw [shlFrom]
    split_ifs with h
    · have hone : carry = 1 := by omega
      rw [hone]
      rfl
    · have hzero : carry = 0 := by omega
      rw [hzero]
      rfl
  | cons l limbs ih =>
    have hl := l.toNat_lt
    have hv : (l.toNat <<< 1) ||| carry = 2 * l.toNat + carry := by
      rw [Nat.shiftLeft_eq, Nat.mul_comm, ← Nat.two_pow_add_eq_or_of_lt (by omega)]
    rw [shlFrom]
    simp only [hv, Nat.shiftRight_eq_div_pow]
    rw [Lib.val_cons, ih (by omega), Lib.val_cons, UInt32.toNat_ofNat']
    omega

@[simp]
theorem value_shl1 (x : BigUint) : x.shl1.value = 2 * x.value := by
  rw [shl1, value_normalize, val_shlFrom (Nat.zero_le 1), value, Nat.add_zero]

theorem value_setLow {x : BigUint} (h : x.value % 2 = 0) : x.setLow.value = x.value + 1 := by
  obtain ⟨limbs, hnormal⟩ := x
  cases limbs with
  | nil => rfl
  | cons l limbs =>
    have hor : (l ||| 1).toNat = l.toNat + 1 := by
      have heven : l.toNat % 2 = 0 := by
        rw [value, Lib.val_cons] at h
        omega
      have hbit := Nat.two_pow_add_eq_or_of_lt (i := 1) (b := 1) (by decide) (l.toNat / 2)
      have hsplit : 2^1 * (l.toNat / 2) = l.toNat := by omega
      rw [hsplit] at hbit
      rw [UInt32.toNat_or]
      exact hbit.symm
    change val ((l ||| 1) :: limbs) = val (l :: limbs) + 1
    rw [Lib.val_cons, Lib.val_cons, hor]
    omega

theorem int64_eq {n : ℤ} (h : -2^63 ≤ n) (h' : n < 2^63) : int64 n = some n := if_pos ⟨h, h'⟩

theorem limbOrZero_spec (other : List UInt32) (i : ℕ) : ∃ o : ℕ, limbOrZero other i = some (o : ℤ) ∧ o < 2^32 ∧
      val (other.drop i) = o + 2^32 * val (other.drop (i + 1)) := by
  unfold limbOrZero
  by_cases hi : i < other.length
  · refine ⟨other[i].toNat, ?_, other[i].toNat_lt, ?_⟩
    · rw [if_pos hi, List.getElem?_eq_getElem hi]
      rfl
    · rw [List.drop_eq_getElem_cons hi, Lib.val_cons]
  · refine ⟨0, if_neg hi, by decide, ?_⟩
    rw [List.drop_eq_nil_of_le (by omega), List.drop_eq_nil_of_le (by omega), Lib.val_nil, Nat.mul_zero]

theorem wrap_spec {d : ℤ} (h : -2^32 ≤ d) (h' : d < 2^32) :
    ∃ d', wrap d = some d' ∧ 0 ≤ d' ∧ d' < 2^32 ∧ d = d' - 2^32 * (if d < 0 then 1 else 0) := by
  unfold wrap
  split_ifs with hneg
  · exact ⟨d + 2^32, int64_eq (by omega) (by omega), by omega, by omega, by omega⟩
  · exact ⟨d, rfl, by omega, by omega, by omega⟩

theorem subFrom_spec (other : List UInt32) (limbs : List UInt32) (i : ℕ) {borrow : ℤ} (hborrow : borrow = 0 ∨ borrow = 1) :
    ∃ out q, subFrom other i borrow limbs = some out ∧ out.length = limbs.length ∧
      (val limbs : ℤ) - val (other.drop i) - borrow = val out + q * (2^32)^limbs.length := by
  induction limbs generalizing i borrow with
  | nil =>
    refine ⟨[], -val (other.drop i) - borrow, rfl, rfl, ?_⟩
    rw [Lib.val_nil, List.length_nil, pow_zero]
    push_cast
    ring
  | cons l limbs ih =>
    obtain ⟨o, hread, ho, hdrop⟩ := limbOrZero_spec other i
    have hl := l.toNat_lt
    generalize hd : (l.toNat : ℤ) - o - borrow = d
    have hnext : (if d < 0 then (1 : ℤ) else 0) = 0 ∨ (if d < 0 then (1 : ℤ) else 0) = 1 := by
      split_ifs <;> simp
    obtain ⟨out, q, hout, hlen, hvalue⟩ := ih (i + 1) hnext
    obtain ⟨d', hd', hpos, hword, hsplit⟩ := wrap_spec (d := d) (by omega) (by omega)
    refine ⟨.ofNat (d' % 2^32).toNat :: out, q, ?_, by rw [List.length_cons, List.length_cons, hlen], ?_⟩
    · rw [subFrom, hread]
      simp only [Option.bind_eq_bind, Option.bind_some]
      rw [int64_eq (by omega) (by omega), Option.bind_some, hd, int64_eq (by omega) (by omega), Option.bind_some, hout,
        Option.bind_some, hd', Option.bind_some]
    · have hnat : ((UInt32.ofNat (d' % 2^32).toNat).toNat : ℤ) = d' := by
        rw [Int.emod_eq_of_lt hpos hword, UInt32.toNat_ofNat']
        omega
      rw [hdrop, Lib.val_cons, Lib.val_cons, List.length_cons, pow_succ]
      simp only [Nat.cast_add, Nat.cast_mul, Nat.cast_pow, Nat.cast_ofNat, hnat]
      linear_combination hd + hsplit + 2^32 * hvalue

theorem sub_spec {a b : BigUint} (h : b.value ≤ a.value) : ∃ c, a.sub b = some c ∧ c.value = a.value - b.value := by
  obtain ⟨out, q, hout, hlen, hvalue⟩ := subFrom_spec b.limbs a.limbs 0 (.inl rfl)
  refine ⟨normalize out, by rw [sub, hout]; rfl, ?_⟩
  rw [value_normalize]
  have hlt := Lib.val_lt out
  have hlt' := Lib.val_lt a.limbs
  rw [hlen] at hlt
  rw [List.drop_zero, sub_zero] at hvalue
  change val b.limbs ≤ val a.limbs at h
  change val out = val a.limbs - val b.limbs
  -- Nothing is borrowed beyond the last limb.
  have hq : q = 0 := by
    have hpos : (0 : ℤ) < (2^32)^a.limbs.length := by positivity
    have hout : (val out : ℤ) < (2^32)^a.limbs.length := by exact_mod_cast hlt
    have ha : (val a.limbs : ℤ) < (2^32)^a.limbs.length := by exact_mod_cast hlt'
    by_contra hq
    rcases lt_or_gt_of_ne hq with hneg | hq
    · have hle : q * (2^32)^a.limbs.length ≤ -1 * (2^32)^a.limbs.length :=
        mul_le_mul_of_nonneg_right (by omega) (le_of_lt hpos)
      omega
    · have hle : 1 * (2^32)^a.limbs.length ≤ q * (2^32)^a.limbs.length :=
        mul_le_mul_of_nonneg_right (by omega) (le_of_lt hpos)
      omega
  rw [hq, zero_mul, add_zero] at hvalue
  omega

/-! ## Products -/

theorem word_mul_add {a b l carry : ℕ} (ha : a < 2^32) (hb : b < 2^32) (hl : l < 2^32) (hcarry : carry < 2^32) :
    a * b < 2^64 ∧ l + a * b < 2^64 ∧ l + a * b + carry < 2^64 := by
  have hproduct : a * b ≤ (2^32 - 1) * (2^32 - 1) := Nat.mul_le_mul (by omega) (by omega)
  omega

theorem mulLimb_spec (a : UInt32) (other mid : List UInt32) (hmid : mid.length = other.length) (pre post : List UInt32)
    {carry : ℕ} (hcarry : carry < 2^32) :
    ∃ mid' carry', mulLimb a (pre ++ (mid ++ post)) pre.length carry other = some (pre ++ (mid' ++ post), carry') ∧
      mid'.length = mid.length ∧ carry' < 2^32 ∧
      val mid' + (2^32)^mid.length * carry' = val mid + a.toNat * val other + carry := by
  induction other generalizing mid pre carry with
  | nil =>
    rw [List.length_eq_zero_iff.mp hmid]
    exact ⟨[], carry, rfl, rfl, hcarry, by simp⟩
  | cons b other ih =>
    obtain ⟨l, mid, rfl⟩ := List.exists_cons_of_length_pos (by rw [hmid]; exact Nat.succ_pos _)
    obtain ⟨hproduct, hsum, hcur⟩ := word_mul_add a.toNat_lt b.toNat_lt l.toNat_lt hcarry
    have hget : (pre ++ (l :: mid ++ post))[pre.length]? = some l := by simp
    generalize hw : l.toNat + a.toNat * b.toNat + carry = cur at hcur
    have hput : Lib.put (pre ++ (l :: mid ++ post)) pre.length (.ofNat (cur % 2^32)) =
        some ((pre ++ [.ofNat (cur % 2^32)]) ++ (mid ++ post)) := by
      rw [Lib.put, if_pos (by simp)]
      simp
    have hnext : cur >>> 32 < 2^32 := by
      rw [Nat.shiftRight_eq_div_pow]
      omega
    obtain ⟨mid', carry', hrest, hlen, hcarry', hvalue⟩ :=
      ih mid (Nat.succ.inj hmid) (pre ++ [.ofNat (cur % 2^32)]) hnext
    refine ⟨.ofNat (cur % 2^32) :: mid', carry', ?_, by simp [hlen], hcarry', ?_⟩
    · rw [mulLimb, hget]
      simp only [Option.bind_eq_bind, Option.bind_some]
      rw [Lib.word_eq hproduct, Option.bind_some, Lib.word_eq hsum, Option.bind_some, hw, Lib.word_eq hcur,
        Option.bind_some, hput, Option.bind_some]
      rw [List.length_append, List.length_singleton] at hrest
      rw [hrest, List.append_assoc]
      rfl
    · have hsplit : cur % 2^32 + 2^32 * (cur >>> 32) = cur := by
        rw [Nat.shiftRight_eq_div_pow]
        exact Nat.mod_add_div ..
      rw [Lib.val_cons, Lib.val_cons, Lib.val_cons, toNat_ofNat_mod, List.length_cons, pow_succ]
      calc cur % 2^32 + 2^32 * val mid' + (2^32)^mid.length * 2^32 * carry'
          = cur % 2^32 + 2^32 * (val mid' + (2^32)^mid.length * carry') := by ring
        _ = cur % 2^32 + 2^32 * (cur >>> 32) + 2^32 * (val mid + a.toNat * val other) := by rw [hvalue]; ring
        _ = l.toNat + 2^32 * val mid + a.toNat * (b.toNat + 2^32 * val other) + carry := by rw [hsplit, ← hw]; ring

theorem propagate_spec (post : List UInt32) (pre : List UInt32) {carry : ℕ} (hcarry : carry < 2^32)
    (hroom : val post + carry < (2^32)^post.length) :
    ∃ post', propagate (pre ++ post) pre.length carry post.length = some (pre ++ post') ∧
      post'.length = post.length ∧ val post' = val post + carry := by
  induction post generalizing pre carry with
  | nil =>
    have hzero : carry = 0 := by simpa using hroom
    rw [hzero]
    exact ⟨[], rfl, rfl, rfl⟩
  | cons l post ih =>
    by_cases hzero : carry = 0
    · rw [hzero, List.length_cons, propagate, if_pos rfl]
      exact ⟨l :: post, rfl, rfl, rfl⟩
    have hl := l.toNat_lt
    generalize hw : l.toNat + carry = cur
    have hsplit : cur % 2^32 + 2^32 * (cur >>> 32) = cur := by
      rw [Nat.shiftRight_eq_div_pow]
      exact Nat.mod_add_div ..
    have hput : Lib.put (pre ++ l :: post) pre.length (.ofNat (cur % 2^32)) =
        some ((pre ++ [.ofNat (cur % 2^32)]) ++ post) := by
      rw [Lib.put, if_pos (by simp)]
      simp
    have hnext : cur >>> 32 < 2^32 := by omega
    have hrest : val post + cur >>> 32 < (2^32)^post.length := by
      have hpow : (2^32)^(post.length + 1) = (2^32)^post.length * 2^32 := pow_succ ..
      rw [Lib.val_cons, List.length_cons, hpow] at hroom
      generalize (2^32)^post.length = places at hroom ⊢
      omega
    obtain ⟨post', hrest, hlen, hvalue⟩ := ih (pre ++ [.ofNat (cur % 2^32)]) hnext hrest
    refine ⟨.ofNat (cur % 2^32) :: post', ?_, by simp [hlen], ?_⟩
    · rw [List.length_cons, propagate, if_neg hzero]
      have hget : (pre ++ l :: post)[pre.length]? = some l := by simp
      rw [hget]
      simp only [Option.bind_eq_bind, Option.bind_some]
      rw [hw, Lib.word_eq (by omega), Option.bind_some, hput, Option.bind_some]
      rw [List.length_append, List.length_singleton] at hrest
      rw [hrest, List.append_assoc]
      rfl
    · rw [Lib.val_cons, Lib.val_cons, toNat_ofNat_mod, hvalue]
      omega

theorem mulFrom_spec (other rest : List UInt32) (i : ℕ) (limbs : List UInt32)
    (hlen : limbs.length = i + rest.length + other.length)
    (hroom : val limbs + (2^32)^i * (val rest * val other) < (2^32)^limbs.length) :
    ∃ limbs', mulFrom other limbs i rest = some limbs' ∧
      val limbs' = val limbs + (2^32)^i * (val rest * val other) := by
  induction rest generalizing i limbs with
  | nil => exact ⟨limbs, rfl, by simp⟩
  | cons a rest ih =>
    rw [List.length_cons] at hlen
    -- The limbs before `i`, those that the product goes to, and those that take the carry.
    obtain ⟨pre, mid, post, rfl, hpre, hmid⟩ : ∃ pre mid post, limbs = pre ++ (mid ++ post) ∧ pre.length = i ∧
        mid.length = other.length :=
      ⟨limbs.take i, (limbs.drop i).take other.length, (limbs.drop i).drop other.length, by simp,
        List.length_take_of_le (by omega), List.length_take_of_le (by rw [List.length_drop]; omega)⟩
    subst hpre
    obtain ⟨mid', carry, hlimb, hmid', hcarry, hvalue⟩ := mulLimb_spec a other mid hmid pre post (Nat.two_pow_pos 32)
    rw [Nat.add_zero] at hvalue
    have hwhole : val (pre ++ (mid' ++ post)) + (2^32)^(pre ++ mid').length * carry =
        val (pre ++ (mid ++ post)) + (2^32)^pre.length * (a.toNat * val other) := by
      rw [Lib.val_append, Lib.val_append, Lib.val_append, Lib.val_append, List.length_append, pow_add, hmid']
      linear_combination (2^32)^pre.length * hvalue
    have hstep : val (pre ++ (mid ++ post)) + (2^32)^pre.length * (val (a :: rest) * val other) =
        val (pre ++ (mid ++ post)) + (2^32)^pre.length * (a.toNat * val other) +
          (2^32)^(pre.length + 1) * (val rest * val other) := by
      rw [Lib.val_cons, pow_succ]
      ring
    have hlength : (pre ++ (mid ++ post)).length = (pre ++ mid').length + post.length := by
      simp only [List.length_append, hmid']
      omega
    have hcarried : val post + carry < (2^32)^post.length := by
      refine Nat.lt_of_mul_lt_mul_left (a := (2^32)^(pre ++ mid').length) ?_
      rw [← pow_add, ← hlength]
      calc (2^32)^(pre ++ mid').length * (val post + carry)
          ≤ val (pre ++ mid') + (2^32)^(pre ++ mid').length * (val post + carry) := Nat.le_add_left ..
        _ = val (pre ++ (mid' ++ post)) + (2^32)^(pre ++ mid').length * carry := by
            rw [← List.append_assoc, Lib.val_append (pre ++ mid')]
            ring
        _ = val (pre ++ (mid ++ post)) + (2^32)^pre.length * (a.toNat * val other) := hwhole
        _ ≤ val (pre ++ (mid ++ post)) + (2^32)^pre.length * (val (a :: rest) * val other) := by
            rw [hstep]
            exact Nat.le_add_right ..
        _ < (2^32)^(pre ++ (mid ++ post)).length := hroom
    obtain ⟨post', hpropagate, hpost', hvalue'⟩ := propagate_spec post (pre ++ mid') hcarry hcarried
    have hdone : val ((pre ++ mid') ++ post') =
        val (pre ++ (mid ++ post)) + (2^32)^pre.length * (a.toNat * val other) := by
      rw [← hwhole, ← List.append_assoc, Lib.val_append (pre ++ mid'), Lib.val_append (pre ++ mid'), hvalue']
      ring
    have hlength' : ((pre ++ mid') ++ post').length = (pre ++ (mid ++ post)).length := by
      rw [List.length_append, hpost', hlength]
    obtain ⟨limbs', hrest, hresult⟩ := ih (pre.length + 1) ((pre ++ mid') ++ post') (by omega) (by
      rw [hlength', hdone, ← hstep]
      exact hroom)
    refine ⟨limbs', ?_, by rw [hresult, hdone, hstep]⟩
    have hplace : pre.length + other.length = (pre ++ mid').length := by
      rw [List.length_append, hmid', hmid]
    have hmore : (pre ++ (mid' ++ post)).length - (pre ++ mid').length = post.length := by
      simp only [List.length_append]
      omega
    rw [mulFrom, hlimb]
    simp only [Option.bind_eq_bind, Option.bind_some]
    rw [hplace, hmore, ← List.append_assoc, hpropagate, Option.bind_some]
    exact hrest

theorem mul_spec (a b : BigUint) : ∃ c, a.mul b = some c ∧ c.value = a.value * b.value := by
  unfold mul
  split_ifs with h
  · refine ⟨zero, rfl, ?_⟩
    rw [value_zero]
    rcases Bool.or_eq_true_iff.mp h with h | h
    · rw [(isZero_iff a).mp h, Nat.zero_mul]
    · rw [(isZero_iff b).mp h, Nat.mul_zero]
  have hroom : val (List.replicate (a.limbs.length + b.limbs.length) 0) + (2^32)^0 * (val a.limbs * val b.limbs) <
      (2^32)^(List.replicate (a.limbs.length + b.limbs.length) (0 : UInt32)).length := by
    rw [Lib.val_replicate_zero, pow_zero, Nat.zero_add, Nat.one_mul, List.length_replicate, pow_add]
    exact Nat.mul_lt_mul'' (Lib.val_lt _) (Lib.val_lt _)
  obtain ⟨limbs, hlimbs, hvalue⟩ := mulFrom_spec b.limbs a.limbs 0 _ (by simp) hroom
  refine ⟨normalize limbs, by rw [hlimbs]; rfl, ?_⟩
  rw [value_normalize, hvalue, Lib.val_replicate_zero, pow_zero, Nat.zero_add, Nat.one_mul]
  rfl

theorem add_mul_lt {base low low' high high' : ℕ} (hlow : low < base) (h : high < high') :
    low + base * high < low' + base * high' := by
  calc low + base * high < base * (high + 1) := by rw [Nat.mul_succ]; omega
    _ ≤ base * high' := Nat.mul_le_mul_left _ h
    _ ≤ low' + base * high' := Nat.le_add_left ..

theorem cmpFrom_spec {a b : List UInt32} {n : ℕ} (ha : n ≤ a.length) (hb : n ≤ b.length) :
    cmpFrom a b n = some (compare (val (a.take n)) (val (b.take n))) := by
  induction n with
  | zero => rfl
  | succ n ih =>
    have hx : a[n]? = some a[n] := List.getElem?_eq_getElem ha
    have hy : b[n]? = some b[n] := List.getElem?_eq_getElem hb
    have hvalue : ∀ (l : List UInt32) (h : n < l.length), val (l.take (n + 1)) = val (l.take n) + (2^32)^n * l[n].toNat := by
      intro l h
      rw [List.take_succ_eq_append_getElem h, Lib.val_append, List.length_take_of_le (by omega), Lib.val_cons, Lib.val_nil,
        Nat.mul_zero, Nat.add_zero]
    have hlow : ∀ (l : List UInt32), n < l.length → val (l.take n) < (2^32)^n := by
      intro l h
      have hlt := Lib.val_lt (l.take n)
      rwa [List.length_take_of_le (by omega)] at hlt
    rw [cmpFrom, hx, hy]
    simp only [Option.bind_eq_bind, Option.bind_some]
    rw [hvalue a ha, hvalue b hb]
    have halow := hlow a ha
    have hblow := hlow b hb
    split_ifs with hne
    · -- The highest limbs decide.
      rcases Nat.lt_trichotomy a[n].toNat b[n].toNat with hlt | heq | hgt
      · rw [compare_lt_iff_lt.mpr hlt, compare_lt_iff_lt.mpr (add_mul_lt halow hlt)]
      · exact absurd (UInt32.toNat_inj.mp heq) hne
      · rw [compare_gt_iff_gt.mpr hgt, compare_gt_iff_gt.mpr (add_mul_lt hblow hgt)]
    · rw [ih (by omega) (by omega), not_not.mp hne]
      rcases Nat.lt_trichotomy (val (a.take n)) (val (b.take n)) with hlt | heq | hgt
      · rw [compare_lt_iff_lt.mpr hlt, compare_lt_iff_lt.mpr (Nat.add_lt_add_right hlt _)]
      · rw [heq, compare_eq_iff_eq.mpr rfl, compare_eq_iff_eq.mpr rfl]
      · rw [compare_gt_iff_gt.mpr hgt, compare_gt_iff_gt.mpr (Nat.add_lt_add_right hgt _)]

theorem cmp_spec (a b : BigUint) : a.cmp b = some (compare a.value b.value) := by
  unfold cmp
  by_cases hlen : a.limbs.length = b.limbs.length
  · rw [if_neg (not_not.mpr hlen), cmpFrom_spec (Nat.le_refl _) (Nat.le_of_eq hlen), List.take_length]
    nth_rewrite 1 [hlen]
    rw [List.take_length]
    rfl
  · rw [if_pos hlen]
    -- The longer is the larger.
    rcases Nat.lt_or_gt_of_ne hlen with hlt | hgt
    · have hvalue : a.value < b.value := Lib.val_lt_of_length_lt b.normal hlt
      rw [compare_lt_iff_lt.mpr hlt, compare_lt_iff_lt.mpr hvalue]
    · have hvalue : b.value < a.value := Lib.val_lt_of_length_lt a.normal hgt
      rw [compare_gt_iff_gt.mpr hgt, compare_gt_iff_gt.mpr hvalue]

theorem value_lt_bitLen (x : BigUint) : x.value < 2^x.bitLen := by
  unfold bitLen
  cases hlast : x.limbs.getLast? with
  | none =>
    rw [List.getLast?_eq_none_iff] at hlast
    rw [value, hlast]
    decide
  | some top =>
    obtain ⟨limbs, hlimbs⟩ := List.getLast?_eq_some_iff.mp hlast
    have htop : top.toNat < 2^top.toNat.size := Nat.lt_size_self _
    have hsize : top.toNat.size ≤ 32 := Nat.size_le.mpr top.toNat_lt
    have hbits : x.limbs.length * 32 - leadingZeros top = 32 * limbs.length + top.toNat.size := by
      rw [leadingZeros, hlimbs, List.length_append, List.length_singleton]
      omega
    simp only
    rw [hbits, value, hlimbs, Lib.val_append, Lib.val_cons, Lib.val_nil, Nat.mul_zero, Nat.add_zero, pow_add, pow_mul]
    have hlow := Lib.val_lt limbs
    calc val limbs + (2^32)^limbs.length * top.toNat < (2^32)^limbs.length * (top.toNat + 1) := by
          rw [Nat.mul_succ]
          omega
      _ ≤ (2^32)^limbs.length * 2^top.toNat.size := Nat.mul_le_mul_left _ htop

theorem bit_spec (x : BigUint) (i : ℕ) : x.bit i = some (x.value.testBit i) := by
  unfold bit
  rw [value, Lib.testBit_val]
  by_cases hi : i / 32 < x.limbs.length
  · rw [if_pos hi, List.getElem?_eq_getElem hi, List.getD_eq_getElem _ _ hi]
    simp only [Option.bind_eq_bind, Option.bind_some, Option.some.injEq]
    rw [Nat.testBit_eq_decide_div_mod_eq, Nat.shiftRight_eq_div_pow, Nat.and_one_is_mod]
    rfl
  · rw [if_neg hi, List.getD_eq_default _ _ (by omega), UInt32.toNat_zero, Nat.zero_testBit]

theorem reduce_spec {x modulus : BigUint} (h : x.value < 2 * modulus.value) :
    ∃ r, reduce x modulus = some r ∧ r.value = x.value % modulus.value := by
  unfold reduce
  rw [cmp_spec]
  simp only [Option.bind_eq_bind, Option.bind_some]
  by_cases hlt : x.value < modulus.value
  · rw [if_neg (not_not.mpr (compare_lt_iff_lt.mpr hlt))]
    exact ⟨x, rfl, (Nat.mod_eq_of_lt hlt).symm⟩
  · rw [if_pos fun h => hlt (compare_lt_iff_lt.mp h)]
    obtain ⟨r, hr, hvalue⟩ := sub_spec (Nat.le_of_not_lt hlt)
    refine ⟨r, hr, ?_⟩
    rw [hvalue, Nat.mod_eq_sub_mod (Nat.le_of_not_lt hlt), Nat.mod_eq_of_lt (by omega)]

theorem value_step (rem : BigUint) (set : Bool) :
    (if set then rem.shl1.setLow else rem.shl1).value = 2 * rem.value + set.toNat := by
  cases set with
  | false =>
    rw [if_neg (by decide), value_shl1]
    rfl
  | true =>
    rw [if_pos rfl, value_setLow (by rw [value_shl1]; omega), value_shl1]
    rfl

theorem remFrom_spec {self modulus : BigUint} (hmodulus : 0 < modulus.value) (i : ℕ) {rem : BigUint}
    (hrem : rem.value = self.value / 2^i % modulus.value) :
    ∃ r, remFrom self modulus i rem = some r ∧ r.value = self.value % modulus.value := by
  induction i generalizing rem with
  | zero => exact ⟨rem, rfl, by rw [hrem, pow_zero, Nat.div_one]⟩
  | succ i ih =>
    generalize hset : self.value.testBit i = set
    have hbit : self.value / 2^i = 2 * (self.value / 2^(i + 1)) + set.toNat := by
      have htest : set.toNat = self.value / 2^i % 2 := by
        rw [← hset, Nat.toNat_testBit]
      rw [htest, pow_succ, ← Nat.div_div_eq_div_mul]
      omega
    have hlt : rem.value < modulus.value := by
      rw [hrem]
      exact Nat.mod_lt _ hmodulus
    have hsmall : (if set then rem.shl1.setLow else rem.shl1).value < 2 * modulus.value := by
      have hone := set.toNat_le
      rw [value_step]
      omega
    obtain ⟨rem', hrem', hvalue⟩ := reduce_spec hsmall
    have hnext : rem'.value = self.value / 2^i % modulus.value := by
      rw [hvalue, value_step, hrem, hbit, Nat.add_mod, Nat.mul_mod, Nat.mod_mod, ← Nat.mul_mod, ← Nat.add_mod]
    obtain ⟨r, hr, hresult⟩ := ih hnext
    refine ⟨r, ?_, hresult⟩
    rw [remFrom, bit_spec, hset]
    simp only [Option.bind_eq_bind, Option.bind_some]
    rw [hrem', Option.bind_some, hr]

theorem rem_spec {modulus : BigUint} (hmodulus : 0 < modulus.value) (x : BigUint) :
    ∃ r, x.rem modulus = some r ∧ r.value = x.value % modulus.value := by
  unfold rem
  rw [cmp_spec]
  simp only [Option.bind_eq_bind, Option.bind_some]
  by_cases hlt : x.value < modulus.value
  · rw [if_pos (compare_lt_iff_lt.mpr hlt)]
    exact ⟨x, rfl, (Nat.mod_eq_of_lt hlt).symm⟩
  · rw [if_neg fun h => hlt (compare_lt_iff_lt.mp h)]
    refine remFrom_spec hmodulus _ ?_
    rw [value_zero, Nat.div_eq_of_lt (value_lt_bitLen x), Nat.zero_mod]

theorem mulRem_spec {modulus : BigUint} (hmodulus : 0 < modulus.value) (a b : BigUint) :
    ∃ c, mulRem a b modulus = some c ∧ c.value = a.value * b.value % modulus.value := by
  obtain ⟨product, hproduct, hvalue⟩ := mul_spec a b
  obtain ⟨c, hc, hvalue'⟩ := rem_spec hmodulus product
  refine ⟨c, ?_, by rw [hvalue', hvalue]⟩
  rw [mulRem, hproduct, Option.bind_eq_bind, Option.bind_some, hc]

theorem powFrom_spec {exp modulus : BigUint} (hmodulus : 0 < modulus.value) (self : ℕ) (n i : ℕ) {result base : BigUint}
    (hresult : result.value = self^(exp.value % 2^i) % modulus.value)
    (hbase : base.value = self^2^i % modulus.value) :
    ∃ r, powFrom exp modulus i n result base = some r ∧ r.value = self^(exp.value % 2^(i + n)) % modulus.value := by
  induction n generalizing i result base with
  | zero => exact ⟨result, rfl, hresult⟩
  | succ n ih =>
    have hmod : exp.value % 2^(i + 1) = exp.value % 2^i + 2^i * (exp.value.testBit i).toNat := by
      rw [Nat.toNat_testBit, Nat.mod_pow_succ]
    generalize hset : exp.value.testBit i = set at hmod
    obtain ⟨base', hbase', hsquare⟩ := mulRem_spec hmodulus base base
    have hnext : ∃ result', cond set (mulRem result base modulus) (some result) = some result' ∧
        result'.value = self^(exp.value % 2^(i + 1)) % modulus.value := by
      cases set with
      | false => exact ⟨result, rfl, by rw [hmod, Bool.toNat_false, Nat.mul_zero, Nat.add_zero, hresult]⟩
      | true =>
        obtain ⟨result', hrun, hvalue⟩ := mulRem_spec hmodulus result base
        refine ⟨result', hrun, ?_⟩
        rw [hvalue, hresult, hbase, hmod, Bool.toNat_true, Nat.mul_one, pow_add, ← Nat.mul_mod]
    obtain ⟨result', hrun, hvalue⟩ := hnext
    have hpow : base'.value = self^2^(i + 1) % modulus.value := by
      rw [hsquare, hbase, ← Nat.mul_mod, ← pow_add, pow_succ, Nat.mul_two]
    obtain ⟨r, hr, hlast⟩ := ih (i + 1) hvalue hpow
    refine ⟨r, ?_, by rw [hlast, Nat.add_right_comm, Nat.add_assoc]⟩
    rw [powFrom, bit_spec, hset]
    simp only [Option.bind_eq_bind, Option.bind_some]
    rw [hrun, Option.bind_some, hbase', Option.bind_some, hr]

theorem modpow_spec {modulus : BigUint} (hmodulus : 0 < modulus.value) (x exp : BigUint) :
    ∃ c, x.modpow exp modulus = some c ∧ c.value = x.value^exp.value % modulus.value := by
  have hzero : ¬ modulus.isZero = true := fun h => Nat.ne_of_gt hmodulus ((isZero_iff modulus).mp h)
  obtain ⟨result, hresult, hone⟩ := rem_spec hmodulus (fromU32 1)
  obtain ⟨base, hbase, hvalue⟩ := rem_spec hmodulus x
  have hfirst : result.value = x.value^(exp.value % 2^0) % modulus.value := by
    rw [hone, value_fromU32, pow_zero, Nat.mod_one, pow_zero]
    rfl
  obtain ⟨c, hc, hpow⟩ := powFrom_spec hmodulus x.value exp.bitLen 0 hfirst (by rw [hvalue, pow_zero, pow_one])
  refine ⟨c, ?_, ?_⟩
  · rw [modpow, if_neg hzero, hresult, hbase]
    exact hc
  · rw [hpow, Nat.zero_add, Nat.mod_eq_of_lt (value_lt_bitLen exp)]

theorem foldl_shift (chunk : List UInt8) (n : ℕ) {v : ℕ} (hv : v < 2^(8 * n)) :
    (chunk.zipIdx n).foldl (fun v p => v ||| p.1.toNat <<< (8 * p.2)) v = v + 2^(8 * n) * Lib.ofLe chunk := by
  induction chunk generalizing n v with
  | nil => simp [Lib.ofLe]
  | cons b chunk ih =>
    have hb : b.toNat < 2^8 := b.toNat_lt
    have hor : v ||| b.toNat <<< (8 * n) = v + 2^(8 * n) * b.toNat := by
      rw [Nat.shiftLeft_eq, Nat.mul_comm, Nat.or_comm, ← Nat.two_pow_add_eq_or_of_lt hv, Nat.add_comm]
    have hpow : 2^(8 * (n + 1)) = 2^(8 * n) * 256 := by
      rw [Nat.mul_succ, pow_add]
      rfl
    have hlt : v + 2^(8 * n) * b.toNat < 2^(8 * (n + 1)) := by
      rw [hpow]
      calc v + 2^(8 * n) * b.toNat < 2^(8 * n) * (b.toNat + 1) := by
            rw [Nat.mul_succ]
            omega
        _ ≤ 2^(8 * n) * 256 := Nat.mul_le_mul_left _ hb
    rw [List.zipIdx_cons, List.foldl_cons]
    simp only
    rw [hor, ih (n + 1) hlt, hpow, Lib.ofLe]
    ring

theorem toNat_limbOf {chunk : List UInt8} (h : chunk.length ≤ 4) : (limbOf chunk).toNat = Lib.ofLe chunk := by
  have hlt : Lib.ofLe chunk < 2^32 := by
    calc Lib.ofLe chunk < 256^chunk.length := Lib.ofLe_lt chunk
      _ ≤ 256^4 := Nat.pow_le_pow_right (by decide) h
      _ = 2^32 := rfl
  have hfold := foldl_shift chunk 0 (v := 0) (by decide)
  rw [Nat.mul_zero, pow_zero, Nat.one_mul, Nat.zero_add] at hfold
  unfold limbOf
  rw [hfold]
  exact UInt32.toNat_ofNat_of_lt' hlt

@[simp]
theorem value_fromBytesLe (bytes : List UInt8) : (fromBytesLe bytes).value = Lib.ofLe bytes := by
  rw [fromBytesLe, value_normalize]
  induction bytes using Lib.chunks_induction (show 0 < 4 by decide) with
  | nil => rfl
  | cons bytes hsome ih =>
    have hsplit : Lib.ofLe bytes = Lib.ofLe (bytes.take 4) + 256^(bytes.take 4).length * Lib.ofLe (bytes.drop 4) := by
      rw [← Lib.ofLe_append, List.take_append_drop]
    rw [Lib.chunks_of_ne_nil (by decide) hsome, List.map_cons, Lib.val_cons, ih,
      toNat_limbOf (by rw [List.length_take]; omega), hsplit]
    by_cases hlong : 4 ≤ bytes.length
    · rw [List.length_take_of_le hlong]
      rfl
    · rw [List.drop_eq_nil_of_le (by omega), Lib.ofLe, Nat.mul_zero, Nat.mul_zero]

theorem ofLe_flatMap (limbs : List UInt32) :
    Lib.ofLe (limbs.flatMap fun limb => Lib.leBytes 4 limb.toNat) = val limbs := by
  induction limbs with
  | nil => rfl
  | cons l limbs ih =>
    rw [List.flatMap_cons, Lib.ofLe_append, Lib.length_leBytes, ih, Lib.ofLe_leBytes_of_lt l.toNat_lt, Lib.val_cons]
    rfl

theorem ofLe_replicate (n : ℕ) : Lib.ofLe (List.replicate n 0) = 0 := by
  induction n with
  | zero => rfl
  | succ n ih => rw [List.replicate_succ, Lib.ofLe, ih, UInt8.toNat_zero]

theorem take_leBytes {k w : ℕ} (h : k ≤ w) (n : ℕ) : (Lib.leBytes w n).take k = Lib.leBytes k n := by
  induction k generalizing w n with
  | zero => rfl
  | succ k ih =>
    cases w with
    | zero => exact absurd h (by omega)
    | succ w => rw [Lib.leBytes, Lib.leBytes, List.take_succ_cons, ih (by omega)]

theorem toBytesLe_eq (x : BigUint) (len : ℕ) : x.toBytesLe len = Lib.leBytes len x.value := by
  generalize hw : (x.limbs.flatMap fun limb => Lib.leBytes 4 limb.toNat) ++ List.replicate len 0 = w
  have hvalue : Lib.ofLe w = x.value := by
    rw [← hw, Lib.ofLe_append, ofLe_flatMap, ofLe_replicate, Nat.mul_zero, Nat.add_zero, value]
  have hlen : len ≤ w.length := by
    rw [← hw, List.length_append, List.length_replicate]
    exact Nat.le_add_left ..
  calc x.toBytesLe len = w.take len := by rw [toBytesLe, hw]
    _ = (Lib.leBytes w.length (Lib.ofLe w)).take len := by rw [Lib.leBytes_ofLe]
    _ = Lib.leBytes len x.value := by rw [take_leBytes hlen, hvalue]

/-- The arithmetic returns, and is exact; a number has no zero limb at its end. -/
theorem arithmetic_exact : (∀ a b : BigUint, ∃ c, a.mul b = some c ∧ c.value = a.value * b.value) ∧
      (∀ a b : BigUint, b.value ≤ a.value → ∃ c, a.sub b = some c ∧ c.value = a.value - b.value) ∧
      (∀ a modulus : BigUint, modulus.value ≠ 0 → ∃ c, a.rem modulus = some c ∧ c.value = a.value % modulus.value) ∧
      (∀ a exp modulus : BigUint, modulus.value ≠ 0 →
        ∃ c, a.modpow exp modulus = some c ∧ c.value = a.value^exp.value % modulus.value) ∧
      ∀ message modulus exponent, Lib.ofLe modulus ≠ 0 → encryptLe message modulus exponent =
        some (Lib.leBytes modulus.length (Lib.ofLe message^Lib.ofLe exponent % Lib.ofLe modulus)) := by
  refine ⟨mul_spec, fun a b h => sub_spec h, fun a modulus h => rem_spec (Nat.pos_of_ne_zero h) a,
    fun a exp modulus h => modpow_spec (Nat.pos_of_ne_zero h) a exp, fun message modulus exponent h => ?_⟩
  have hmodulus : 0 < (fromBytesLe modulus).value := by
    rw [value_fromBytesLe]
    exact Nat.pos_of_ne_zero h
  obtain ⟨c, hc, hvalue⟩ := modpow_spec hmodulus (fromBytesLe message) (fromBytesLe exponent)
  rw [encryptLe, hc, Option.map_some, toBytesLe_eq, hvalue, value_fromBytesLe, value_fromBytesLe, value_fromBytesLe]

/-- 65^17 mod 3233. -/
theorem arithmetic_exact_textbook : Lib.ofLe [0xA1, 0x0C] ≠ 0 ∧ encryptLe [0x41] [0xA1, 0x0C] [0x11] =
      some (Lib.leBytes 2 (Lib.ofLe [0x41] ^ Lib.ofLe [0x11] % Lib.ofLe [0xA1, 0x0C])) :=
  ⟨by decide, arithmetic_exact.2.2.2.2 _ _ _ (by decide)⟩

end Rdpio.Crypto.BigUint
