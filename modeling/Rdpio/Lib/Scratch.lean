import Mathlib.Data.Vector.Defs

/-!
# Scratch buffers

A buffer of fixed length that a computation writes before it reads it.
-/

namespace Rdpio.Lib

variable {α : Type*} {n : ℕ}

def fill (v : Vector α n) (x : α) : Vector α n := v.map (Function.const α x)

theorem fill_eq (v w : Vector α n) (x : α) : fill v x = fill w x := by
  rw [fill, fill, Vector.map_const, Vector.map_const]

variable [Inhabited α]

def read (v : Vector α n) (i : ℕ) : α := v[i]?.getD default

def write (v : Vector α n) (i : ℕ) (x : α) : Vector α n := v.setIfInBounds i x

theorem read_of_length_le {v : Vector α n} {i : ℕ} (h : n ≤ i) : read v i = default := by
  rw [read, Vector.getElem?_eq_none h]
  rfl

theorem read_write_self (v : Vector α n) {i : ℕ} (x : α) (h : i < n) : read (write v i x) i = x := by
  simp [read, write, h]

theorem read_write_of_ne (v : Vector α n) {i j : ℕ} (x : α) (h : i ≠ j) : read (write v i x) j = read v j := by
  rw [read, write, Vector.getElem?_setIfInBounds, if_neg h, read]

/-- The two buffers hold the same at every position of `S`. -/
def AgreeOn (S : ℕ → Prop) (v w : Vector α n) : Prop := ∀ i, S i → read v i = read w i

namespace AgreeOn

variable {S T : ℕ → Prop} {v w : Vector α n}

theorem none : AgreeOn (fun _ => False) v w := fun _ h => h.elim

theorem refl : AgreeOn S v v := fun _ _ => rfl

theorem mono (h : AgreeOn S v w) (hT : ∀ i, T i → S i) : AgreeOn T v w := fun i hi => h i (hT i hi)

theorem eq (h : AgreeOn S v w) (hS : ∀ i, S i) : v = w := by
  ext i hi
  have hi' := h i (hS i)
  simpa [read, hi] using hi'

theorem write (h : AgreeOn S v w) (i : ℕ) {x y : α} (hxy : x = y) :
    AgreeOn (fun j => S j ∨ j = i) (Lib.write v i x) (Lib.write w i y) := by
  subst hxy
  intro j hj
  by_cases hij : i = j
  · subst hij
    by_cases hi : i < n
    · rw [read_write_self v x hi, read_write_self w x hi]
    · rw [read_of_length_le (by omega), read_of_length_le (by omega)]
  · rw [read_write_of_ne v x hij, read_write_of_ne w x hij]
    exact h j (hj.resolve_right fun h => hij h.symm)

end AgreeOn

end Rdpio.Lib
