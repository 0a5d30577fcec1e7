import Mathlib.Data.List.Permutation

/-!
# Machines with output

A machine that takes one input at a time and sometimes hands something out.
-/

namespace Rdpio.Lib

variable {σ τ α β γ κ : Type*}

def transduce (f : σ → α → σ × Option β) : σ → List α → σ × List β
  | s, [] => (s, [])
  | s, a :: as =>
    let (s', b) := f s a
    let (s'', bs) := transduce f s' as
    (s'', b.toList ++ bs)

@[simp]
theorem transduce_nil (f : σ → α → σ × Option β) (s : σ) : transduce f s [] = (s, []) := rfl

theorem transduce_cons (f : σ → α → σ × Option β) (s : σ) (a : α) (as : List α) :
    transduce f s (a :: as) = ((transduce f (f s a).1 as).1, (f s a).2.toList ++ (transduce f (f s a).1 as).2) := rfl

theorem transduce_append (f : σ → α → σ × Option β) (s : σ) (as bs : List α) : transduce f s (as ++ bs) =
      ((transduce f (transduce f s as).1 bs).1,
        (transduce f s as).2 ++ (transduce f (transduce f s as).1 bs).2) := by
  induction as generalizing s with
  | nil => rfl
  | cons a as ih =>
    rw [List.cons_append, transduce_cons, ih, transduce_cons]
    dsimp only
    rw [List.append_assoc]

/-- The first machine's output is the second's input. -/
def pipe (f : σ → α → σ × Option β) (g : τ → β → τ × Option γ) (s : σ × τ) (a : α) : (σ × τ) × Option γ :=
  match f s.1 a with
  | (s', none) => ((s', s.2), none)
  | (s', some b) =>
    let (t', c) := g s.2 b
    ((s', t'), c)

theorem transduce_pipe (f : σ → α → σ × Option β) (g : τ → β → τ × Option γ) (s : σ) (t : τ)
    (as : List α) :
    transduce (pipe f g) (s, t) as = (((transduce f s as).1, (transduce g t (transduce f s as).2).1),
        (transduce g t (transduce f s as).2).2) := by
  induction as generalizing s t with
  | nil => rfl
  | cons a as ih =>
    rw [transduce_cons, transduce_cons]
    rcases h : f s a with ⟨s', _ | b⟩
    · have hp : pipe f g (s, t) a = ((s', t), none) := by
        unfold pipe
        rw [h]
      rw [hp, ih]
      rfl
    · have hp : pipe f g (s, t) a = ((s', (g t b).1), (g t b).2) := by
        unfold pipe
        rw [h]
      rw [hp, ih]
      dsimp only
      rw [Option.toList_some, List.singleton_append, transduce_cons]

variable [DecidableEq κ]

def under (k : κ) (as : List (κ × α)) : List α := (as.filter (·.1 = k)).map Prod.snd

@[simp]
theorem under_nil (k : κ) : under k ([] : List (κ × α)) = [] := rfl

@[simp]
theorem under_cons_self (k : κ) (a : α) (as : List (κ × α)) :
    under k ((k, a) :: as) = a :: under k as := by simp [under]

theorem under_cons_of_ne {k k' : κ} (h : k' ≠ k) (a : α) (as : List (κ × α)) :
    under k ((k', a) :: as) = under k as := by simp [under, h]

theorem under_append (k : κ) (as bs : List (κ × α)) : under k (as ++ bs) = under k as ++ under k bs := by
  rw [under, List.filter_append, List.map_append]
  rfl

theorem mem_under {k : κ} {a : α} {as : List (κ × α)} : a ∈ under k as ↔ (k, a) ∈ as := by
  simp [under]

theorem under_map (f : κ → α → β) (k : κ) (as : List (κ × α)) :
    under k (as.map fun a => (a.1, f a.1 a.2)) = (under k as).map (f k) := by
  induction as with
  | nil => rfl
  | cons a as ih =>
    obtain ⟨k', a⟩ := a
    rw [List.map_cons]
    by_cases h : k' = k
    · subst h
      rw [under_cons_self, under_cons_self, ih, List.map_cons]
    · rw [under_cons_of_ne h, under_cons_of_ne h, ih]

theorem perm_of_under [DecidableEq α] {as bs : List (κ × α)} (h : ∀ k, under k as = under k bs) : as.Perm bs := by
  refine List.perm_iff_count.mpr fun a => ?_
  have hcount : ∀ l : List (κ × α), l.count a = (under a.1 l).count a.2 := by
    intro l
    induction l with
    | nil => rfl
    | cons b l ih =>
      obtain ⟨k, b⟩ := b
      by_cases hk : k = a.1
      · subst hk
        rw [under_cons_self, List.count_cons, List.count_cons, ih]
        simp [Prod.ext_iff]
      · rw [under_cons_of_ne hk, List.count_cons, ih, if_neg (by simp [Prod.ext_iff, hk]),
          Nat.add_zero]
  rw [hcount, hcount, h]

/-- A machine with a state for each key. -/
def keyed (f : σ → α → σ × Option β) (s : κ → σ) (a : κ × α) : (κ → σ) × Option (κ × β) :=
  let (s', b) := f (s a.1) a.2
  (Function.update s a.1 s', b.map (a.1, ·))

theorem transduce_keyed (f : σ → α → σ × Option β) (s : κ → σ) (as : List (κ × α)) (k : κ) :
    (transduce (keyed f) s as).1 k = (transduce f (s k) (under k as)).1 ∧
      under k (transduce (keyed f) s as).2 = (transduce f (s k) (under k as)).2 := by
  induction as generalizing s with
  | nil => exact ⟨rfl, rfl⟩
  | cons a as ih =>
    obtain ⟨k', a⟩ := a
    obtain ⟨hs, ho⟩ := ih (keyed f s (k', a)).1
    rw [transduce_cons]
    dsimp only
    rw [under_append, hs, ho]
    by_cases h : k' = k
    · subst h
      have hk : (keyed f s (k', a)).1 k' = (f (s k') a).1 := Function.update_self ..
      have hb : under k' (keyed f s (k', a)).2.toList = (f (s k') a).2.toList := by
        unfold keyed
        dsimp only
        cases (f (s k') a).2 with
        | none => rfl
        | some b => exact under_cons_self k' b []
      rw [hk, hb, under_cons_self, transduce_cons]
      exact ⟨rfl, rfl⟩
    · have hk : (keyed f s (k', a)).1 k = s k := Function.update_of_ne (Ne.symm h) ..
      have hb : under k (keyed f s (k', a)).2.toList = [] := by
        unfold keyed
        dsimp only
        cases (f (s k') a).2 with
        | none => rfl
        | some b => exact under_cons_of_ne h b []
      rw [hk, hb, under_cons_of_ne h]
      exact ⟨rfl, rfl⟩

end Rdpio.Lib
