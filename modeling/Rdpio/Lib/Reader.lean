import Rdpio.Lib.Bytes

/-!
# Readers

A reader takes what it needs from the front of a byte string, and gives it with the rest; it may fail in any
way that a monad `m` has.
-/

namespace Rdpio.Lib

variable {α β : Type} {m : Type → Type} [Monad m]

abbrev ReaderOf (m : Type → Type) (α : Type) := StateT (List UInt8) m α

abbrev Reader := ReaderOf Option

/-- The bytes that a reader takes for a value. -/
def Reads (r : ReaderOf m α) (w : List UInt8) (a : α) : Prop := ∀ rest, r.run (w ++ rest) = pure (a, rest)

theorem reads_pure (a : α) : Reads (pure a : ReaderOf m α) [] a := fun _ => rfl

theorem Reads.bind [LawfulMonad m] {r : ReaderOf m α} {f : α → ReaderOf m β} {v w : List UInt8} {a : α} {b : β}
    (hr : Reads r v a) (hf : Reads (f a) w b) : Reads (r >>= f) (v ++ w) b := by
  intro rest
  rw [StateT.run_bind, List.append_assoc, hr, pure_bind]
  exact hf rest

theorem Reads.last [LawfulMonad m] {r : ReaderOf m α} {w : List UInt8} {a : α} (hr : Reads r w a) (f : α → β) :
    Reads (r >>= fun a => pure (f a)) w (f a) := by
  have hbind := hr.bind (f := fun a => pure (f a)) (reads_pure (f a))
  rwa [List.append_nil] at hbind

def readTimes (r : ReaderOf m α) : ℕ → ReaderOf m (List α)
  | 0 => pure []
  | n + 1 => do
    let a ← r
    let as ← readTimes r n
    pure (a :: as)

theorem reads_readTimes [LawfulMonad m] {γ : Type} {r : ReaderOf m α} {write : γ → List UInt8} {f : γ → α} {l : List γ}
    (h : ∀ c ∈ l, Reads r (write c) (f c)) : Reads (readTimes r l.length) (l.map write).flatten (l.map f) := by
  induction l with
  | nil => exact reads_pure []
  | cons c l ih =>
    have hrest := ih fun c hc => h c (List.mem_cons_of_mem _ hc)
    exact (h c List.mem_cons_self).bind (hrest.last (f c :: ·))

def takeBytes (n : ℕ) : Reader (List UInt8) := fun b => if n ≤ b.length then some (b.take n, b.drop n) else none

theorem reads_takeBytes (w : List UInt8) : Reads (takeBytes w.length) w w := by
  intro rest
  change takeBytes w.length (w ++ rest) = _
  rw [takeBytes, if_pos (by simp), List.take_left, List.drop_left]
  rfl

def takeByte : Reader UInt8
  | [] => none
  | b :: rest => some (b, rest)

theorem reads_takeByte (b : UInt8) : Reads takeByte [b] b := fun _ => rfl

def takeLe (w : ℕ) : Reader ℕ := do
  let b ← takeBytes w
  pure (ofLe b)

theorem reads_takeLe {w n : ℕ} (h : n < 256^w) : Reads (takeLe w) (leBytes w n) n := by
  have hlast := (reads_takeBytes (leBytes w n)).last ofLe
  rwa [length_leBytes, ofLe_leBytes_of_lt h] at hlast

def pack (k n tag v : ℕ) : List UInt8 := UInt8.ofNat (tag * 2^(8 - k) + v / 256^n) :: beBytes n v

def unpack (k : ℕ) (more : ℕ → ℕ) : Reader (ℕ × ℕ) := do
  let first ← takeByte
  let tag := first.toNat / 2^(8 - k)
  let low ← takeBytes (more tag)
  pure (tag, first.toNat % 2^(8 - k) * 256^more tag + ofBe low)

theorem reads_pack {k n t v : ℕ} (hk : k ≤ 8) (ht : t < 2^k) (hv : v < 2^(8 - k) * 256^n) {m : ℕ → ℕ}
    (hn : m t = n) : Reads (unpack k m) (pack k n t v) (t, v) := by
  have hpos : 0 < 2^(8 - k) := Nat.two_pow_pos _
  have hhigh : v / 256^n < 2^(8 - k) := Nat.div_lt_of_lt_mul (by rwa [Nat.mul_comm])
  have hbyte : (UInt8.ofNat (t * 2^(8 - k) + v / 256^n)).toNat = t * 2^(8 - k) + v / 256^n := by
    have hall : 2^k * 2^(8 - k) = 256 := by
      rw [← pow_add, Nat.add_sub_cancel' hk]
      rfl
    refine UInt8.toNat_ofNat_of_lt' ?_
    calc t * 2^(8 - k) + v / 256^n < t * 2^(8 - k) + 2^(8 - k) := Nat.add_lt_add_left hhigh _
      _ = (t + 1) * 2^(8 - k) := by ring
      _ ≤ 2^k * 2^(8 - k) := Nat.mul_le_mul_right _ ht
      _ = 256 := hall
  have hdiv : (t * 2^(8 - k) + v / 256^n) / 2^(8 - k) = t := by
    rw [Nat.mul_comm, Nat.mul_add_div hpos, Nat.div_eq_of_lt hhigh, Nat.add_zero]
  have hmod : (t * 2^(8 - k) + v / 256^n) % 2^(8 - k) = v / 256^n := by
    rw [Nat.mul_comm, Nat.mul_add_mod, Nat.mod_eq_of_lt hhigh]
  have hlow : Reads (takeBytes n) (beBytes n v) (beBytes n v) := by
    have htake := reads_takeBytes (beBytes n v)
    rwa [length_beBytes] at htake
  have hvalue : v / 256^n * 256^n + ofBe (beBytes n v) = v := by
    rw [ofBe_beBytes, Nat.mul_comm]
    exact Nat.div_add_mod v (256^n)
  have hlast := hlow.last fun low => (t, v / 256^n * 256^n + ofBe low)
  rw [hvalue] at hlast
  refine Reads.bind (v := [UInt8.ofNat (t * 2^(8 - k) + v / 256^n)]) (reads_takeByte _) ?_
  simp only [hbyte, hdiv, hmod, hn]
  exact hlast

end Rdpio.Lib
