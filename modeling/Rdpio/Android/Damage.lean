import Mathlib.Algebra.Order.Ring.Nat
import Mathlib.Data.List.Basic
import Mathlib.Data.List.GetD

/-!
# What each buffer is missing

`android/rust/src/rdp/damage.rs`: rectangles that changed, and for each of the Surface's buffers the list of
what it is missing.
-/

namespace Rdpio.Android

/-- Right and bottom are exclusive. -/
structure Rect where
  left : ℕ
  top : ℕ
  right : ℕ
  bottom : ℕ
deriving DecidableEq

def maxRects : ℕ := 24
def maxBuffers : ℕ := 6

namespace Rect

/-- The pixel lies in the rectangle. -/
def Has (r : Rect) (x y : ℕ) : Prop := r.left ≤ x ∧ x < r.right ∧ r.top ≤ y ∧ y < r.bottom

instance (r : Rect) (x y : ℕ) : Decidable (r.Has x y) := inferInstanceAs (Decidable (_ ∧ _))

def area (r : Rect) : ℕ := (r.right - r.left) * (r.bottom - r.top)

def union (a b : Rect) : Rect := ⟨min a.left b.left, min a.top b.top, max a.right b.right, max a.bottom b.bottom⟩

def close (r o : Rect) : Bool :=
  r.left ≤ o.right && o.left ≤ r.right && r.top ≤ o.bottom && o.top ≤ r.bottom && (o.union r).area ≤ o.area + r.area

theorem has_union_left {a : Rect} {x y : ℕ} (h : a.Has x y) (b : Rect) : (a.union b).Has x y :=
  ⟨(min_le_left ..).trans h.1, h.2.1.trans_le (le_max_left ..), (min_le_left ..).trans h.2.2.1,
    h.2.2.2.trans_le (le_max_left ..)⟩

theorem has_union_right (a : Rect) {b : Rect} {x y : ℕ} (h : b.Has x y) : (a.union b).Has x y :=
  ⟨(min_le_right ..).trans h.1, h.2.1.trans_le (le_max_right ..), (min_le_right ..).trans h.2.2.1,
    h.2.2.2.trans_le (le_max_right ..)⟩

theorem not_has_of_area_eq_zero {r : Rect} (h : r.area = 0) (x y : ℕ) : ¬ r.Has x y := by
  rintro ⟨hl, hr, ht, hb⟩
  rcases Nat.mul_eq_zero.mp h with h | h <;> omega

end Rect

/-! ## Lists of rectangles -/

/-- Some rectangle of the list has the pixel. -/
def Covers (list : List Rect) (x y : ℕ) : Prop := ∃ r ∈ list, r.Has x y

instance (list : List Rect) (x y : ℕ) : Decidable (Covers list x y) := inferInstanceAs (Decidable (∃ r ∈ list, _))

def swapRemove (list : List Rect) (i : ℕ) : List Rect :=
  match list.getLast? with
  | some last => (list.set i last).dropLast
  | none => []

def absorb : ℕ → List Rect → Rect → List Rect × Rect
  | 0, list, r => (list, r)
  | n + 1, list, r =>
    match list.findIdx? r.close with
    | some i => absorb n (swapRemove list i) ((list.getD i r).union r)
    | none => (list, r)

def enclosing : List Rect → Option Rect
  | [] => none
  | r :: list => some (list.foldl Rect.union r)

def addTo (list : List Rect) (full r : Rect) : List Rect :=
  if r.area = 0 then list
  else
    let (list, r) := absorb list.length list r
    let list := list ++ [r]
    if maxRects < list.length ∨ full.area ≤ (list.map Rect.area).sum then [(enclosing list).getD r] else list

theorem mem_swapRemove {list : List Rect} {i : ℕ} {o : Rect} (hi : i < list.length) (ho : o ∈ list) (r : Rect) :
    o ∈ swapRemove list i ∨ o = list.getD i r := by
  obtain ⟨j, hj, rfl⟩ := List.getElem_of_mem ho
  have hne : list ≠ [] := List.ne_nil_of_mem ho
  have hlength : 0 < list.length := by omega
  unfold swapRemove
  rw [List.getLast?_eq_some_getLast hne]
  dsimp only
  by_cases hij : j = i
  · subst hij
    exact .inr (List.getD_eq_getElem list r hj).symm
  left
  rw [List.mem_iff_getElem]
  by_cases hlast : j = list.length - 1
  · -- The last has taken the place of the one removed.
    refine ⟨i, by rw [List.length_dropLast, List.length_set]; omega, ?_⟩
    rw [List.getElem_dropLast, List.getElem_set_self, List.getLast_eq_getElem]
    congr 1
    exact hlast.symm
  · refine ⟨j, by rw [List.length_dropLast, List.length_set]; omega, ?_⟩
    rw [List.getElem_dropLast, List.getElem_set_ne (Ne.symm hij)]

theorem covers_absorb {n : ℕ} {list : List Rect} {r : Rect} {x y : ℕ} (h : Covers list x y ∨ r.Has x y) :
    Covers (absorb n list r).1 x y ∨ (absorb n list r).2.Has x y := by
  induction n generalizing list r with
  | zero => exact h
  | succ n ih =>
    unfold absorb
    rcases hi : list.findIdx? r.close with _ | i
    · exact h
    · refine ih ?_
      rcases h with ⟨o, ho, hhas⟩ | h
      · have hlength : i < list.length := (List.findIdx?_eq_some_iff_findIdx_eq.mp hi).1
        rcases mem_swapRemove hlength ho r with hkept | rfl
        · exact .inl ⟨o, hkept, hhas⟩
        · exact .inr (Rect.has_union_left hhas r)
      · exact .inr (Rect.has_union_right _ h)

theorem has_foldl_union {list : List Rect} {r : Rect} {x y : ℕ} (h : r.Has x y ∨ Covers list x y) :
    (list.foldl Rect.union r).Has x y := by
  induction list generalizing r with
  | nil =>
    rcases h with h | ⟨o, ho, -⟩
    · exact h
    · cases ho
  | cons o list ih =>
    refine ih ?_
    rcases h with h | ⟨o', ho', hhas⟩
    · exact .inl (Rect.has_union_left h o)
    · rcases List.mem_cons.mp ho' with rfl | ho'
      · exact .inl (Rect.has_union_right r hhas)
      · exact .inr ⟨o', ho', hhas⟩

theorem has_enclosing {list : List Rect} {x y : ℕ} (h : Covers list x y) :
    ∃ b, enclosing list = some b ∧ b.Has x y := by
  rcases list with _ | ⟨r, list⟩
  · obtain ⟨_, hr, -⟩ := h
    cases hr
  · refine ⟨_, rfl, has_foldl_union ?_⟩
    obtain ⟨o, ho, hhas⟩ := h
    rcases List.mem_cons.mp ho with rfl | ho
    · exact .inl hhas
    · exact .inr ⟨o, ho, hhas⟩

theorem covers_addTo {list : List Rect} {r : Rect} {x y : ℕ} (full : Rect) (h : Covers list x y ∨ r.Has x y) :
    Covers (addTo list full r) x y := by
  unfold addTo
  by_cases harea : r.area = 0
  · rw [if_pos harea]
    exact h.resolve_right (Rect.not_has_of_area_eq_zero harea x y)
  · rw [if_neg harea]
    have hall := covers_absorb (n := list.length) h
    generalize absorb list.length list r = merged at hall
    have hcover : Covers (merged.1 ++ [merged.2]) x y := by
      rcases hall with ⟨o, ho, hhas⟩ | hhas
      · exact ⟨o, List.mem_append_left _ ho, hhas⟩
      · exact ⟨merged.2, List.mem_append_right _ (List.mem_singleton_self _), hhas⟩
    dsimp only
    split
    · obtain ⟨b, hb, hhas⟩ := has_enclosing hcover
      exact ⟨b, by rw [hb]; exact List.mem_singleton_self _, hhas⟩
    · exact hcover

theorem eq_nil_of_addTo {list : List Rect} {full r : Rect} (h : addTo list full r = []) : list = [] := by
  unfold addTo at h
  split at h
  · exact h
  · dsimp only at h
    split at h
    · cases h
    · simp at h

theorem covers_foldl_addTo {rs list : List Rect} {x y : ℕ} (full : Rect)
    (h : Covers list x y ∨ Covers rs x y) : Covers (rs.foldl (addTo · full ·) list) x y := by
  induction rs generalizing list with
  | nil =>
    rcases h with h | ⟨_, hr, -⟩
    · exact h
    · cases hr
  | cons r rs ih =>
    refine ih ?_
    rcases h with h | ⟨o, ho, hhas⟩
    · exact .inl (covers_addTo full (.inl h))
    · rcases List.mem_cons.mp ho with rfl | ho
      · exact .inl (covers_addTo full (.inr hhas))
      · exact .inr ⟨o, ho, hhas⟩

structure Damage where
  full : Rect
  /-- Changed since the last show. -/
  fresh : List Rect
  /-- For each buffer, by its address, what changed since it was last painted. -/
  buffers : List (ℕ × List Rect)
  /-- The buffers move in memory: Android's way. -/
  broken : Bool
deriving DecidableEq

namespace Damage

def default : Damage := ⟨⟨0, 0, 0, 0⟩, [], [], false⟩

variable (d : Damage)

def reset (width height : ℕ) : Damage :=
  { d with full := ⟨0, 0, width, height⟩, fresh := [⟨0, 0, width, height⟩], buffers := [] }

def add (r : Rect) : Damage :=
  let r : Rect := ⟨min r.left d.full.right, min r.top d.full.bottom, min r.right d.full.right,
    min r.bottom d.full.bottom⟩
  { d with fresh := addTo d.fresh d.full r }

def isEmpty : Bool := d.fresh.isEmpty

def takeBounds : Damage × Option Rect := ({ d with buffers := [], fresh := [] }, enclosing d.fresh)

def spread : List (ℕ × List Rect) := d.buffers.map fun b => (b.1, d.fresh.foldl (addTo · d.full ·) b.2)

def forBuffer (address : ℕ) : Damage × List Rect :=
  match d.spread.find? (·.1 = address) with
  | some b =>
    let i := d.spread.findIdx (·.1 = address)
    ({ d with fresh := [], buffers := d.spread.set i (address, []) }, b.2)
  | none =>
    let buffers := d.spread ++ [(address, [])]
    ({ d with fresh := [], buffers, broken := d.broken || decide (maxBuffers < buffers.length) }, [d.full])

end Damage

theorem Damage.covers_add {d : Damage} {r : Rect} {x y : ℕ}
    (h : Covers d.fresh x y ∨ r.Has x y ∧ x < d.full.right ∧ y < d.full.bottom) :
    Covers (d.add r).fresh x y := by
  refine covers_addTo d.full (h.imp_right ?_)
  rintro ⟨⟨hl, hr, ht, hb⟩, hx, hy⟩
  refine ⟨?_, ?_, ?_, ?_⟩ <;> dsimp only <;> omega

end Rdpio.Android
