import Mathlib.Data.List.Forall2
import Mathlib.Tactic.Common

/-!
# Runs of a machine that may end

A step takes a state and an input to a state and an output, or ends the machine (`none`).
-/

namespace Rdpio.Lib

variable {σ α β : Type*} (step : σ → α → Option (σ × β))

def outputs (s : σ) : List α → Option (List β)
  | [] => some []
  | a :: as => (step s a).bind fun r => (outputs r.1 as).map (r.2 :: ·)

def Meets (C : σ → α → Prop) (s : σ) : List α → Prop
  | [] => True
  | a :: as => C s a ∧ ∀ r, step s a = some r → Meets C r.1 as

variable {step}

theorem outputs_cons_isSome {s : σ} {a : α} {as : List α} :
    (outputs step s (a :: as)).isSome ↔ ∃ r, step s a = some r ∧ (outputs step r.1 as).isSome := by
  rw [outputs]
  cases step s a with
  | none => simp
  | some r => simp

theorem outputs_cons_eq_some {s : σ} {a : α} {as : List α} {bs : List β} (h : outputs step s (a :: as) = some bs) :
    ∃ r rest, step s a = some r ∧ outputs step r.1 as = some rest ∧ bs = r.2 :: rest := by
  obtain ⟨r, hr, h⟩ := Option.bind_eq_some_iff.mp h
  obtain ⟨rest, hrest, h⟩ := Option.map_eq_some_iff.mp h
  exact ⟨r, rest, hr, hrest, h.symm⟩

theorem outputs_isSome_iff (I : σ → Prop) {C : σ → α → Prop} (hsome : ∀ s a, I s → ((step s a).isSome ↔ C s a))
    (hkeep : ∀ s a r, I s → step s a = some r → I r.1) {s : σ} (hs : I s) (as : List α) :
    (outputs step s as).isSome ↔ Meets step C s as := by
  induction as generalizing s with
  | nil => exact iff_of_true rfl trivial
  | cons a as ih =>
    rw [outputs_cons_isSome, Meets, ← hsome s a hs]
    constructor
    · rintro ⟨r, hr, hrest⟩
      refine ⟨by rw [hr]; rfl, fun r' hr' => ?_⟩
      rw [← Option.some.inj (hr.symm.trans hr')]
      exact (ih (hkeep s a r hs hr)).mp hrest
    · rintro ⟨hfirst, hrest⟩
      obtain ⟨r, hr⟩ := Option.isSome_iff_exists.mp hfirst
      exact ⟨r, hr, (ih (hkeep s a r hs hr)).mpr (hrest r hr)⟩

theorem outputs_isSome_iff_forall {C : α → Prop} (hsome : ∀ s a, (step s a).isSome ↔ C a) (s : σ) (as : List α) :
    (outputs step s as).isSome ↔ ∀ a ∈ as, C a := by
  induction as generalizing s with
  | nil => exact iff_of_true rfl fun a ha => absurd ha List.not_mem_nil
  | cons a as ih =>
    rw [outputs_cons_isSome, List.forall_mem_cons, ← hsome s a]
    constructor
    · rintro ⟨r, hr, hrest⟩
      exact ⟨by rw [hr]; rfl, (ih r.1).mp hrest⟩
    · rintro ⟨hfirst, hrest⟩
      obtain ⟨r, hr⟩ := Option.isSome_iff_exists.mp hfirst
      exact ⟨r, hr, (ih r.1).mpr hrest⟩

theorem outputs_forall₂ {R : α → β → Prop} (hstep : ∀ s a r, step s a = some r → R a r.2) {s : σ} {as : List α}
    {bs : List β} (h : outputs step s as = some bs) : List.Forall₂ R as bs := by
  induction as generalizing s bs with
  | nil =>
    rw [← Option.some.inj h]
    exact .nil
  | cons a as ih =>
    obtain ⟨r, rest, hr, hrest, rfl⟩ := outputs_cons_eq_some h
    exact .cons (hstep s a r hr) (ih hrest)

end Rdpio.Lib

namespace Rdpio.Lib

variable {α β σ : Type*}

/-- The computation returns `v` where `ok` holds, and nothing anywhere else. -/
def Yields (x : Option α) (ok : Prop) (v : α) : Prop := (ok → x = some v) ∧ (¬ ok → x = none)

def EachTurn (ok : σ → β → Prop) (f : σ → β → σ) : List β → σ → Prop
  | [], _ => True
  | b :: l, s => ok s b ∧ EachTurn ok f l (f s b)

namespace Yields

variable {x : Option α} {ok : Prop} {v : α}

theorem ends_iff (h : Yields x ok v) : (∃ a, x = some a) ↔ ok := by
  constructor
  · rintro ⟨a, ha⟩
    by_contra hnot
    rw [h.2 hnot] at ha
    cases ha
  · exact fun hok => ⟨v, h.1 hok⟩

theorem congr {ok' : Prop} (h : Yields x ok v) (hiff : ok ↔ ok') : Yields x ok' v :=
  ⟨fun hok => h.1 (hiff.2 hok), fun hnot => h.2 fun hok => hnot (hiff.1 hok)⟩

theorem guard (ok : Prop) [Decidable ok] (v : α) : Yields (if ok then some v else none) ok v :=
  ⟨fun hok => if_pos hok, fun hnot => if_neg hnot⟩

theorem bind {f : α → Option β} {ok' : Prop} {w : β} (h : Yields x ok v) (hf : Yields (f v) ok' w) :
    Yields (x.bind f) (ok ∧ ok') w := by
  constructor
  · rintro ⟨hok, hok'⟩
    rw [h.1 hok, Option.bind_some, hf.1 hok']
  · intro hnot
    by_cases hok : ok
    · rw [h.1 hok, Option.bind_some, hf.2 fun hok' => hnot ⟨hok, hok'⟩]
    · rw [h.2 hok, Option.bind_none]

theorem map (f : α → β) (h : Yields x ok v) : Yields (x.map f) ok (f v) :=
  ⟨fun hok => by rw [h.1 hok, Option.map_some], fun hnot => by rw [h.2 hnot, Option.map_none]⟩

theorem mapM {f : β → Option α} {g : β → α} {ok : β → Prop} (h : ∀ b, Yields (f b) (ok b) (g b)) (l : List β) :
    Yields (l.mapM f) (∀ b ∈ l, ok b) (l.map g) := by
  induction l with
  | nil => exact ⟨fun _ => rfl, fun hnot => absurd (fun b hb => absurd hb List.not_mem_nil) hnot⟩
  | cons b l ih =>
    have hall : Yields ((f b).bind fun a => (l.mapM f).map (a :: ·)) (ok b ∧ ∀ b ∈ l, ok b) (g b :: l.map g) :=
      (h b).bind (ih.map (g b :: ·))
    have hunfold : (b :: l).mapM f = (f b).bind fun a => (l.mapM f).map (a :: ·) := by
      rw [List.mapM_cons]
      cases f b with
      | none => rfl
      | some a => cases l.mapM f <;> rfl
    rw [hunfold]
    refine congr ?_ (List.forall_mem_cons (p := ok)).symm
    exact hall

theorem foldlM {f : σ → β → Option σ} {g : σ → β → σ} {ok : σ → β → Prop} (h : ∀ s b, Yields (f s b) (ok s b) (g s b))
    (l : List β) (s : σ) : Yields (l.foldlM f s) (EachTurn ok g l s) (l.foldl g s) := by
  induction l generalizing s with
  | nil => exact ⟨fun _ => rfl, fun hnot => absurd trivial hnot⟩
  | cons b l ih => exact (h s b).bind (ih (g s b))

end Yields

end Rdpio.Lib
