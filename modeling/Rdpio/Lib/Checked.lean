import Mathlib.Data.List.GetD
import Mathlib.Tactic.Common

/-!
# Checked indexing

Slices, writes and subtractions that end a program where their bounds are wrong: such an end is `none`.
-/

namespace Rdpio.Lib

variable {α σ : Type*}

/-- `&l[lo..hi]`. -/
def slice (l : List α) (lo hi : ℕ) : Option (List α) :=
  if lo ≤ hi ∧ hi ≤ l.length then some ((l.drop lo).take (hi - lo)) else none

/-- `l[lo..hi].copy_from_slice(src)`. -/
def copyTo (l : List α) (lo hi : ℕ) (src : List α) : Option (List α) :=
  if lo ≤ hi ∧ hi ≤ l.length ∧ src.length = hi - lo then some (l.take lo ++ src ++ l.drop (lo + src.length)) else none

def put (l : List α) (i : ℕ) (x : α) : Option (List α) := if i < l.length then some (l.set i x) else none

def subChecked (a b : ℕ) : Option ℕ := if b ≤ a then some (a - b) else none

/-- Each of `xs` that is there, put where it belongs. -/
def putBack (l xs : List (Option α)) : Option (List (Option α)) :=
  (List.range xs.length).foldlM (fun l i => if (xs.getD i none).isSome then put l i (xs.getD i none) else some l) l

theorem copyTo_spec (l src : List α) (lo hi : ℕ) (hlo : lo ≤ hi) (hhi : hi ≤ l.length) (hsrc : src.length = hi - lo) :
    ∃ l', copyTo l lo hi src = some l' ∧ l'.length = l.length ∧
      ∀ i, l'[i]? = if lo ≤ i ∧ i < hi then src[i - lo]? else l[i]? := by
  refine ⟨_, if_pos ⟨hlo, hhi, hsrc⟩, ?_, fun i => ?_⟩
  · rw [List.length_append, List.length_append, List.length_take, List.length_drop]
    omega
  · have htake : (l.take lo).length = lo := List.length_take_of_le (by omega)
    rw [List.append_assoc]
    rcases Nat.lt_or_ge i lo with hbefore | hge
    · rw [if_neg (by omega), List.getElem?_append_left (by omega), List.getElem?_take, if_pos hbefore]
    · rw [List.getElem?_append_right (by omega), htake]
      by_cases hin : i < hi
      · rw [if_pos ⟨hge, hin⟩, List.getElem?_append_left (by omega)]
      · rw [if_neg (by omega), List.getElem?_append_right (by omega), List.getElem?_drop]
        congr 1
        omega

theorem take_of_copyTo {l l' src : List α} {lo hi : ℕ} (h : copyTo l lo hi src = some l') :
    l'.length = l.length ∧ l'.take hi = l.take lo ++ src := by
  unfold copyTo at h
  split_ifs at h with hin
  rw [Option.some.injEq] at h
  have htake : (l.take lo ++ src).length = hi := by
    rw [List.length_append, List.length_take]
    omega
  rw [← h]
  refine ⟨?_, List.take_left' htake⟩
  rw [List.length_append, htake, List.length_drop]
  omega

theorem foldlM_range_rule {n : ℕ} (P : ℕ → σ → Prop) {g : σ → ℕ → Option σ} {s : σ} (hinit : P 0 s)
    (hstep : ∀ i s, i < n → P i s → ∃ s', g s i = some s' ∧ P (i + 1) s') :
    ∃ s', (List.range n).foldlM g s = some s' ∧ P n s' := by
  induction n with
  | zero => exact ⟨s, rfl, hinit⟩
  | succ n ih =>
    obtain ⟨s', hs', hp⟩ := ih fun i s hi => hstep i s (by omega)
    obtain ⟨s'', hs'', hp'⟩ := hstep n s' (Nat.lt_succ_self n) hp
    refine ⟨s'', ?_, hp'⟩
    rw [List.range_succ, List.foldlM_append, hs']
    simp [hs'']

theorem foldlM_range_eq {n : ℕ} (P : ℕ → σ → Prop) {f : σ → ℕ → σ} {g : σ → ℕ → Option σ} {s : σ} (hinit : P 0 s)
    (hstep : ∀ i s, i < n → P i s → g s i = some (f s i) ∧ P (i + 1) (f s i)) :
    (List.range n).foldlM g s = some ((List.range n).foldl f s) ∧ P n ((List.range n).foldl f s) := by
  induction n with
  | zero => exact ⟨rfl, hinit⟩
  | succ n ih =>
    obtain ⟨hloop, hp⟩ := ih fun i s hi => hstep i s (by omega)
    obtain ⟨hturn, hp'⟩ := hstep n _ (Nat.lt_succ_self n) hp
    rw [List.range_succ, List.foldlM_append, hloop, List.foldl_append]
    refine ⟨?_, hp'⟩
    change (List.foldlM g _ [n]) = _
    rw [List.foldlM_cons, hturn]
    rfl

theorem mapM_rule {β : Type*} {f : β → Option α} {l : List β} (h : ∀ b ∈ l, ∃ a, f b = some a) :
    ∃ as, l.mapM f = some as ∧ as.length = l.length := by
  induction l with
  | nil => exact ⟨[], rfl, rfl⟩
  | cons b l ih =>
    obtain ⟨a, ha⟩ := h b List.mem_cons_self
    obtain ⟨as, has, hlen⟩ := ih fun b hb => h b (List.mem_cons_of_mem _ hb)
    refine ⟨a :: as, ?_, congrArg (· + 1) hlen⟩
    rw [List.mapM_cons, ha, Option.bind_eq_bind, Option.bind_some, has]
    rfl

theorem putBack_blank (l xs : List (Option α)) (h : l.length = xs.length) :
    putBack (l.map fun _ => none) xs = some xs := by
  have hloop := @foldlM_range_eq (List (Option α)) xs.length
    (fun i l' => l'.length = xs.length ∧ ∀ j, j < xs.length → l'[j]? = if j < i then xs[j]? else some none)
    (fun l i => if (xs.getD i none).isSome then l.set i (xs.getD i none) else l)
    (fun l i => if (xs.getD i none).isSome then put l i (xs.getD i none) else some l)
    (l.map fun _ => none)
    ⟨by rw [List.length_map, h], fun j hj => by simp [h, hj]⟩ (by
      rintro i l' hi ⟨hlen, hsofar⟩
      have hget : xs[i]? = some (xs.getD i none) := by
        rw [List.getD_eq_getElem _ _ hi, List.getElem?_eq_getElem hi]
      by_cases hx : (xs.getD i none).isSome = true
      · rw [if_pos hx, if_pos hx]
        refine ⟨if_pos (by omega), by rw [List.length_set, hlen], fun j hj => ?_⟩
        rw [List.getElem?_set, hlen, hsofar j hj]
        by_cases hij : i = j
        · rw [if_pos hij, if_pos hi, if_pos (by omega), ← hij, hget]
        · rw [if_neg hij]
          exact if_congr (by omega) rfl rfl
      · rw [if_neg hx, if_neg hx]
        refine ⟨rfl, hlen, fun j hj => ?_⟩
        rw [hsofar j hj]
        by_cases hij : j = i
        · rw [hij, if_neg (by omega), if_pos (by omega), hget, Option.not_isSome_iff_eq_none.mp hx]
        · exact if_congr (by omega) rfl rfl)
  obtain ⟨hrun, hlen, hall⟩ := hloop
  rw [putBack, hrun, Option.some.injEq]
  apply List.ext_getElem?
  intro j
  by_cases hj : j < xs.length
  · rw [hall j hj, if_pos hj]
  · rw [List.getElem?_eq_none (by omega), List.getElem?_eq_none (by omega)]

end Rdpio.Lib
