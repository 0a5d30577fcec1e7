import Mathlib.Data.List.Induction
import Mathlib.Data.List.Basic
import Mathlib.Order.Basic

/-!
# Runs of a machine

A machine is a step function on states; a run is a list of actions, from a first state on.
-/

namespace Rdpio.Lib

variable {σ α : Type*} (step : σ → α → σ)

def run (s : σ) (as : List α) : σ := as.foldl step s

@[simp]
theorem run_nil (s : σ) : run step s [] = s := rfl

@[simp]
theorem run_cons (s : σ) (a : α) (as : List α) : run step s (a :: as) = run step (step s a) as := rfl

theorem run_concat (s : σ) (as : List α) (a : α) : run step s (as ++ [a]) = step (run step s as) a := by
  rw [run, List.foldl_append, List.foldl_cons, List.foldl_nil, run]

theorem run_append (s : σ) (as bs : List α) : run step s (as ++ bs) = run step (run step s as) bs := List.foldl_append

variable {step}

theorem invariant_run_of_bound (I Ok : σ → Prop) {s : σ} (hs : I s)
    (hbound : ∀ s a, Ok (step s a) → Ok s) (hstep : ∀ s a, I s → Ok (step s a) → I (step s a))
    (as : List α) (hok : Ok (run step s as)) : I (run step s as) := by
  induction as using List.reverseRecOn with
  | nil => exact hs
  | append_singleton as a ih =>
    rw [run_concat] at hok ⊢
    exact hstep _ a (ih (hbound _ a hok)) hok

theorem invariant_run (I : σ → Prop) {s : σ} (hs : I s) (hstep : ∀ s a, I s → I (step s a))
    (as : List α) : I (run step s as) :=
  invariant_run_of_bound I (fun _ => True) hs (fun _ _ _ => trivial) (fun s a h _ => hstep s a h) as trivial

theorem run_mono {β : Type*} [Preorder β] {m : σ → β} {I : σ → Prop}
    (hstep : ∀ s a, I s → I (step s a) ∧ m s ≤ m (step s a)) {s : σ} (hs : I s) (as : List α) :
    m s ≤ m (run step s as) := by
  induction as generalizing s with
  | nil => exact le_refl _
  | cons a as ih => exact (hstep s a hs).2.trans (ih (hstep s a hs).1)

variable (step) in
def Along (P : σ → α → Prop) (s : σ) : List α → Prop
  | [] => True
  | a :: as => P s a ∧ Along P (step s a) as

theorem along_append {P : σ → α → Prop} {s : σ} {as bs : List α} :
    Along step P s (as ++ bs) ↔ Along step P s as ∧ Along step P (run step s as) bs := by
  induction as generalizing s with
  | nil => simp [Along]
  | cons a as ih => rw [List.cons_append, Along, Along, ih, run_cons, and_assoc]

instance (P : σ → α → Prop) [∀ s a, Decidable (P s a)] : (s : σ) → (as : List α) → Decidable (Along step P s as)
  | _, [] => inferInstanceAs (Decidable True)
  | s, a :: as =>
    have := instDecidableAlong P (step s a) as
    inferInstanceAs (Decidable (P s a ∧ Along step P (step s a) as))

theorem Along.mono {P Q : σ → α → Prop} (hPQ : ∀ s a, P s a → Q s a) {s : σ} {as : List α}
    (h : Along step P s as) : Along step Q s as := by
  induction as generalizing s with
  | nil => trivial
  | cons a as ih => exact ⟨hPQ s a h.1, ih h.2⟩

theorem Along.of_prefix {P : σ → α → Prop} {s : σ} {as done : List α} (h : Along step P s as)
    (hdone : done <+: as) : Along step P s done := by
  obtain ⟨rest, rfl⟩ := hdone
  exact (along_append.mp h).1

theorem along_and {P Q : σ → α → Prop} {s : σ} {as : List α} :
    Along step (fun s a => P s a ∧ Q s a) s as ↔ Along step P s as ∧ Along step Q s as := by
  induction as generalizing s with
  | nil => simp [Along]
  | cons a as ih =>
    rw [Along, Along, Along, ih]
    exact and_and_and_comm

theorem invariant_along {P : σ → α → Prop} (I : σ → Prop) {s : σ} (hs : I s)
    (hstep : ∀ s a, I s → P s a → I (step s a)) {as : List α} (h : Along step P s as) :
    I (run step s as) := by
  induction as generalizing s with
  | nil => exact hs
  | cons a as ih => exact ih (hstep s a hs h.1) h.2

theorem Along.imp_of_invariant {P Q : σ → α → Prop} (I : σ → Prop) {s : σ} {as : List α}
    (h : Along step P s as) (hs : I s) (hstep : ∀ s a, I s → P s a → I (step s a))
    (himp : ∀ s a, I s → P s a → Q s a) : Along step Q s as := by
  induction as generalizing s with
  | nil => trivial
  | cons a as ih => exact ⟨himp s a hs h.1, ih h.2 (hstep s a hs h.1)⟩

theorem along_iff_of_invariant {P Q : σ → α → Prop} (I : σ → Prop) {s : σ} (hs : I s)
    (hstep : ∀ s a, I s → Q s a → I (step s a)) (hiff : ∀ s a, I s → (P s a ↔ Q s a)) (as : List α) :
    Along step P s as ↔ Along step Q s as := by
  constructor
  · intro h
    exact h.imp_of_invariant I hs (fun s a hi hp => hstep s a hi ((hiff s a hi).mp hp)) fun s a hi => (hiff s a hi).mp
  · intro h
    exact h.imp_of_invariant I hs hstep fun s a hi => (hiff s a hi).mpr

theorem always_iff_along {P : σ → α → Prop} {I : σ → Prop}
    (hstep : ∀ s a, I s → (I (step s a) ↔ P s a)) {s : σ} (hs : I s) (as : List α) :
    (∀ done, done <+: as → I (run step s done)) ↔ Along step P s as := by
  induction as generalizing s with
  | nil => simpa [Along] using hs
  | cons a as ih =>
    rw [Along, ← hstep s a hs]
    refine ⟨fun h => ?_, fun h done hdone => ?_⟩
    · have ha : I (step s a) := h [a] ((List.prefix_cons_inj a).mpr List.nil_prefix)
      exact ⟨ha, (ih ha).mp fun done hdone => h (a :: done) ((List.prefix_cons_inj a).mpr hdone)⟩
    · cases done with
      | nil => exact hs
      | cons b done =>
        obtain ⟨rfl, htail⟩ := List.cons_prefix_cons.mp hdone
        exact (ih h.1).mpr h.2 done htail

end Rdpio.Lib

namespace Rdpio.Lib

variable {α τ : Type*} {time : α → τ} {P : α → Prop} {t : τ} {past : List α} {x : α}

/-- Every observation since the one made at time `t`, that one included. -/
def Lasted (time : α → τ) (P : α → Prop) (t : τ) (past : List α) : Prop :=
  ∃ before first since, past = before ++ first :: since ∧ time first = t ∧ ∀ y ∈ first :: since, P y

theorem lasted_first (past : List α) (hx : P x) : Lasted time P (time x) (past ++ [x]) :=
  ⟨past, x, [], rfl, rfl, by simpa using hx⟩

theorem Lasted.concat (h : Lasted time P t past) (hx : P x) : Lasted time P t (past ++ [x]) := by
  obtain ⟨before, first, since, rfl, ht, hall⟩ := h
  refine ⟨before, first, since ++ [x], by simp, ht, fun y hy => ?_⟩
  rw [← List.cons_append, List.mem_append, List.mem_singleton] at hy
  rcases hy with hy | rfl
  · exact hall y hy
  · exact hx

theorem Lasted.le [LE τ] {now : τ} (h : Lasted time P t past) (hnow : ∀ y ∈ past, time y ≤ now) : t ≤ now := by
  obtain ⟨before, first, since, rfl, rfl, -⟩ := h
  exact hnow first (by simp)

/-- No observation of the kind was made after a time kept, and there is none if no time is. -/
def Latest [LE τ] (time : α → τ) (P : α → Prop) (last : Option τ) (past : List α) : Prop :=
  ∀ y ∈ past, P y → ∃ t, last = some t ∧ time y ≤ t

theorem Latest.concat [Preorder τ] {last last' : Option τ} (h : Latest time P last past)
    (hnow : ∀ y ∈ past, time y ≤ time x) (hlast : last' = some (time x) ∨ last' = last ∧ ¬ P x) :
    Latest time P last' (past ++ [x]) := by
  intro y hy hPy
  rw [List.mem_append, List.mem_singleton] at hy
  rcases hlast with hlast | ⟨hlast, hx⟩
  · refine ⟨time x, hlast, ?_⟩
    rcases hy with hy | rfl
    · exact hnow y hy
    · exact le_refl _
  · rcases hy with hy | rfl
    · rw [hlast]
      exact h y hy hPy
    · exact absurd hPy hx

end Rdpio.Lib
