import Mathlib.Data.List.Basic
import Rdpio.Lib.Run

/-!
# Long-term references

`crates/rdp-hyper/src/ltr.rs`: the host's plan for each picture.
-/

namespace Rdpio.Hyper.LongTerm

open Lib

abbrev slotCount : ℕ := 2

def newer (a b : UInt32) : Bool := a ≠ b && a - b < 0x7FFFFFFF

structure Ltr where
  /-- Per slot: the frame kept there, and whether the client has it. -/
  slots : Fin slotCount → Option (UInt32 × Bool)
  next_slot : Fin slotCount
  last_mark : Option ℕ
  /-- Pictures (encoder inputs) told to be kept, with their slot. -/
  marking : List (UInt64 × Fin slotCount)
  /-- The picture coded as a repair. -/
  repairing : Option UInt64
  repairs : List ℕ
  /-- The newest repair sent. -/
  repaired : Option UInt32
  repair_ok : Bool

inductive LtrPlan where
  /-- Keep the picture in slot `mark`; code it from the references in mask `from_` only. -/
  | encode (mark from_ : Option UInt32)
  | keyframe
deriving DecidableEq

namespace Ltr

def every : ℕ := 250000000

def repairsPerSec : ℕ := 3

def new (repair_ok : Bool) : Ltr where
  slots _ := none
  next_slot := 0
  last_mark := none
  marking := []
  repairing := none
  repairs := []
  repaired := none
  repair_ok := repair_ok

def confirmed (l : Ltr) : List (UInt32 × Fin slotCount) :=
  (List.finRange slotCount).filterMap fun s =>
    match l.slots s with
    | some (id, true) => some (id, s)
    | _ => none

def newest (l : Ltr) : Option (UInt32 × Fin slotCount) :=
  l.confirmed.foldl (fun best c => match best with
    | some b => if newer b.1 c.1 then some b else some c
    | none => some c) none

theorem mem_confirmed_of_newest {l : Ltr} {c : UInt32 × Fin slotCount} (h : l.newest = some c) : c ∈ l.confirmed := by
  have hfold : ∀ (cs : List (UInt32 × Fin slotCount)) (best : Option (UInt32 × Fin slotCount)),
      cs.foldl (fun best c => match best with
        | some b => if newer b.1 c.1 then some b else some c
        | none => some c) best = some c → best = some c ∨ c ∈ cs := by
    intro cs
    induction cs with
    | nil => exact fun best h => .inl h
    | cons x cs ih =>
      intro best h
      rcases ih _ h with h | h
      · cases best with
        | none =>
          cases h
          exact .inr List.mem_cons_self
        | some b =>
          dsimp only at h
          split_ifs at h
          · exact .inl h
          · cases h
            exact .inr List.mem_cons_self
      · exact .inr (List.mem_cons_of_mem _ h)
  exact (hfold _ none h).resolve_left fun h => by cases h

theorem slots_of_mem_confirmed {l : Ltr} {f : UInt32} {s : Fin slotCount}
    (h : (f, s) ∈ l.confirmed) : l.slots s = some (f, true) := by
  obtain ⟨s', -, hs'⟩ := List.mem_filterMap.mp h
  split at hs'
  next id hid =>
    cases hs'
    exact hid
  · cases hs'

theorem confirmed_ne_nil {l : Ltr} {f : UInt32} {s : Fin slotCount} (h : l.slots s = some (f, true)) :
    l.confirmed ≠ [] := by
  have hmem : (f, s) ∈ l.confirmed := List.mem_filterMap.mpr ⟨s, List.mem_finRange s, by rw [h]⟩
  exact List.ne_nil_of_mem hmem

def plan (l : Ltr) (input : UInt64) (recover key : Bool) (now : ℕ) : Ltr × LtrPlan :=
  if key then (l, if recover then .keyframe else .encode none none)
  else if recover then
    let l := { l with repairs := l.repairs.filter fun t => now - t < 1000000000 }
    match l.newest with
    | some (_, slot) =>
      if l.repairs.length < repairsPerSec then
        ({ l with repairs := l.repairs ++ [now], repairing := some input },
          .encode none (some (1 <<< UInt32.ofNat slot)))
      else ({ l with repairs := [] }, .keyframe)
    | none => ({ l with repairs := [] }, .keyframe)
  else if l.last_mark.any fun t => now - t < every then (l, .encode none none)
  else
    let slot := l.next_slot
    ({ l with
        next_slot := slot + 1
        slots := Function.update l.slots slot none
        marking := l.marking ++ [(input, slot)]
        last_mark := some now },
      .encode (some (UInt32.ofNat slot)) none)

theorem plan_mark (l : Ltr) (input : UInt64) {now : ℕ}
    (hdue : (l.last_mark.any fun t => now - t < every) = false) :
    l.plan input false false now = ({ l with
          next_slot := l.next_slot + 1
          slots := Function.update l.slots l.next_slot none
          marking := l.marking ++ [(input, l.next_slot)]
          last_mark := some now },
        .encode (some (UInt32.ofNat l.next_slot)) none) := by
  unfold plan
  rw [if_neg Bool.false_ne_true, if_neg Bool.false_ne_true, hdue, if_neg Bool.false_ne_true]

theorem plan_of_not_mark (l : Ltr) (input : UInt64) {recover key : Bool} {now : ℕ}
    (h : ¬ (key = false ∧ recover = false ∧ (l.last_mark.any fun t => now - t < every) = false)) :
    (l.plan input recover key now).1.slots = l.slots ∧ (l.plan input recover key now).1.marking = l.marking ∧
      ((l.plan input recover key now).2 = .keyframe ∨
        ∃ from_, (l.plan input recover key now).2 = .encode none from_) := by
  unfold plan
  cases key with
  | true =>
    rw [if_pos rfl]
    cases recover with
    | true => exact ⟨rfl, rfl, .inl rfl⟩
    | false => exact ⟨rfl, rfl, .inr ⟨none, rfl⟩⟩
  | false =>
    rw [if_neg Bool.false_ne_true]
    cases recover with
    | true =>
      rw [if_pos rfl]
      dsimp only
      split
      · split_ifs
        · exact ⟨rfl, rfl, .inr ⟨_, rfl⟩⟩
        · exact ⟨rfl, rfl, .inl rfl⟩
      · exact ⟨rfl, rfl, .inl rfl⟩
    | false =>
      have hearly : (l.last_mark.any fun t => now - t < every) = true := by
        simpa using h
      simp [hearly]

def sent (l : Ltr) (input : UInt64) (frame_id : UInt32) (keyframe : Bool) : Ltr × Bool × Bool :=
  let l := if keyframe then { l with slots := fun _ => none, repairs := [], repaired := none } else l
  let kept := (l.marking.find? (·.1 == input)).map (·.2)
  let marking := (l.marking.eraseP (·.1 == input)).filter (input < ·.1)
  let kept := if keyframe then none else kept
  let slots := match kept with
    | some slot => Function.update l.slots slot (some (frame_id, false))
    | none => l.slots
  let repair := l.repairing == some input
  let repairing := if repair || l.repairing.any (· < input) then none else l.repairing
  let repaired := if repair && !keyframe then some frame_id else l.repaired
  ({ l with marking, slots, repairing, repaired }, kept.isSome, repair && !keyframe)

/-- The client decoded kept frame `frame_id`. -/
def acked (l : Ltr) (frame_id : UInt32) : Ltr :=
  let confirm (e : UInt32 × Bool) : UInt32 × Bool := if e.1 == frame_id then (e.1, true) else e
  let l := { l with slots := fun s => (l.slots s).map confirm }
  if l.repair_ok && l.repaired.any (newer frame_id) then { l with repairs := [], repaired := none }
  else l

theorem slots_sent (l : Ltr) (input : UInt64) (frame_id : UInt32) (keyframe : Bool)
    (s : Fin slotCount) : (l.sent input frame_id keyframe).1.slots s =
      if keyframe then none
      else if (l.marking.find? (·.1 == input)).map (·.2) = some s then some (frame_id, false)
      else l.slots s := by
  cases keyframe with
  | true => rfl
  | false =>
    unfold sent
    simp only [Bool.false_eq_true, if_false]
    cases (l.marking.find? (·.1 == input)).map (·.2) with
    | none => rfl
    | some slot =>
      by_cases hs : s = slot
      · subst hs
        simp
      · rw [if_neg fun h => hs (Option.some.inj h).symm]
        exact Function.update_of_ne hs _ _

theorem mem_marking_sent {l : Ltr} {input : UInt64} {frame_id : UInt32} {keyframe : Bool}
    {m : UInt64 × Fin slotCount} (h : m ∈ (l.sent input frame_id keyframe).1.marking) :
    m ∈ l.marking ∧ input < m.1 := by
  obtain ⟨hmem, hlt⟩ := List.mem_filter.mp h
  refine ⟨?_, of_decide_eq_true hlt⟩
  cases keyframe <;> exact List.mem_of_mem_eraseP hmem

theorem slots_acked (l : Ltr) (frame_id : UInt32) (s : Fin slotCount) : (l.acked frame_id).slots s =
      (l.slots s).map fun e => if e.1 == frame_id then (e.1, true) else e := by
  unfold acked
  dsimp only
  split_ifs <;> rfl

theorem marking_acked (l : Ltr) (frame_id : UInt32) : (l.acked frame_id).marking = l.marking := by
  unfold acked
  dsimp only
  split_ifs <;> rfl

end Ltr

structure Coding where
  ltr : Ltr
  /-- The picture in each reference slot once every picture planned is coded. -/
  holds : Fin slotCount → Option UInt64
  /-- Pictures planned, oldest first, and whether each is a keyframe. -/
  planned : List (UInt64 × Bool)
  /-- How many of them are out, or will never be. -/
  passed : ℕ
  /-- Pictures that went out, with their frames. -/
  frames : List (UInt64 × UInt32)
  confirmed : List UInt32

/-- What happens next. -/
inductive Action where
  /-- A picture is planned; the encoder may make it a keyframe of its own accord. -/
  | plan (input : UInt64) (recover key own : Bool) (now : ℕ)
  /-- The `skip`ped pictures never come out, the one after them goes out. -/
  | sent (skip : ℕ) (frame_id : UInt32)
  | acked (frame_id : UInt32)

namespace Coding

def new (repair_ok : Bool) : Coding := ⟨.new repair_ok, fun _ => none, [], 0, [], []⟩

def markOf (plan : LtrPlan) (s : Fin slotCount) : Bool :=
  match plan with
  | .encode (some mark) _ => mark = UInt32.ofNat s
  | _ => false

def step (σ : Coding) : Action → Coding
  | .plan input recover key own now =>
    let (ltr, plan) := σ.ltr.plan input recover key now
    let keyframe := key || own || plan = .keyframe
    { σ with
      ltr
      holds := if keyframe then fun _ => none
        else fun s => if markOf plan s then some input else σ.holds s
      planned := σ.planned ++ [(input, keyframe)] }
  | .sent skip frame_id =>
    match σ.planned[σ.passed + skip]? with
    | none => σ
    | some (input, keyframe) =>
      { σ with
        ltr := (σ.ltr.sent input frame_id keyframe).1
        passed := σ.passed + skip + 1
        frames := σ.frames ++ [(input, frame_id)] }
  | .acked frame_id => { σ with ltr := σ.ltr.acked frame_id, confirmed := σ.confirmed ++ [frame_id] }

def Next (σ : Coding) : Action → Prop
  | .plan input _ _ _ _ => ∀ p ∈ σ.planned, p.1 < input
  | _ => True

/-- Keyframe `k` is in the encoder: neither it nor a later one went out. -/
def Inside (σ : Coding) (k : UInt64) : Prop := (k, true) ∈ σ.planned ∧ ∀ f ∈ σ.frames, (f.1, true) ∈ σ.planned → f.1 < k

instance (σ : Coding) (k : UInt64) : Decidable (σ.Inside k) :=
  have : Decidable (∀ f ∈ σ.frames, (f.1, true) ∈ σ.planned → f.1 < k) := List.decidableBAll _ _
  inferInstanceAs (Decidable (_ ∧ _))

instance (σ : Coding) : (a : Action) → Decidable (σ.Next a)
  | .plan input _ _ _ _ => List.decidableBAll (fun (p : UInt64 × Bool) => p.1 < input) σ.planned
  | .sent _ _ => inferInstanceAs (Decidable True)
  | .acked _ => inferInstanceAs (Decidable True)

def Prompt (σ : Coding) : Action → Prop
  | .plan _ recover key _ now =>
    (key = false → recover = true → σ.ltr.confirmed ≠ [] → ∀ p ∈ σ.planned, ¬ σ.Inside p.1) ∧
    (key = false → recover = false → (σ.ltr.last_mark.any fun t => now - t < Ltr.every) = false →
      ∀ m ∈ σ.ltr.marking, m.2 ≠ σ.ltr.next_slot)
  | _ => True

instance (σ : Coding) : (a : Action) → Decidable (σ.Prompt a)
  | .plan _ _ _ _ _ =>
    have : Decidable (∀ p ∈ σ.planned, ¬ σ.Inside p.1) := List.decidableBAll _ _
    have : Decidable (∀ m ∈ σ.ltr.marking, m.2 ≠ σ.ltr.next_slot) := List.decidableBAll _ _
    @instDecidableAnd _ _ (inferInstanceAs (Decidable (_ → _ → _))) (inferInstanceAs (Decidable (_ → _ → _)))
  | .sent _ _ => inferInstanceAs (Decidable True)
  | .acked _ => inferInstanceAs (Decidable True)

def Had (σ : Coding) (s : Fin slotCount) : Prop :=
  ∃ i f, σ.holds s = some i ∧ (i, f) ∈ σ.frames ∧ f ∈ σ.confirmed ∧ ∀ k, (k, true) ∈ σ.planned → k < i

/-- The encoder holds picture `i` in slot `s`, or a keyframe inside has emptied it since. -/
def Covered (σ : Coding) (s : Fin slotCount) (i : UInt64) : Prop := σ.holds s = some i ∨ ∃ k, σ.Inside k ∧ i ≤ k

structure Inv (σ : Coding) : Prop where
  unique : ∀ i b c, (i, b) ∈ σ.planned → (i, c) ∈ σ.planned → b = c
  out : ∀ f ∈ σ.frames, ∃ b, (f.1, b) ∈ σ.planned
  kept : ∀ s f b, σ.ltr.slots s = some (f, b) → ∃ i, (i, f) ∈ σ.frames ∧ (b = true → f ∈ σ.confirmed) ∧ σ.Covered s i
  marked : ∀ m ∈ σ.ltr.marking, (∃ b, (m.1, b) ∈ σ.planned) ∧ σ.ltr.slots m.2 = none ∧ σ.Covered m.2 m.1
  apart : ∀ m ∈ σ.ltr.marking, ∀ m' ∈ σ.ltr.marking, m.2 = m'.2 → m = m'
  held : ∀ s i, σ.holds s = some i → ∀ k, (k, true) ∈ σ.planned → k < i

theorem inv_new (repair_ok : Bool) : (new repair_ok).Inv where
  unique i b c hb := absurd hb List.not_mem_nil
  out f hf := absurd hf List.not_mem_nil
  kept s f b h := by cases h
  marked m hm := absurd hm List.not_mem_nil
  apart m hm := absurd hm List.not_mem_nil
  held s i h := by cases h

variable {σ : Coding} {s : Fin slotCount} {i input : UInt64}

/-! ## Planning -/

section

variable {ltr : Ltr} {holds : Fin slotCount → Option UInt64} {keyframe : Bool}

/-- The state after a picture is planned. -/
def planAs (σ : Coding) (ltr : Ltr) (holds : Fin slotCount → Option UInt64) (input : UInt64)
    (keyframe : Bool) : Coding :=
  { σ with ltr, holds, planned := σ.planned ++ [(input, keyframe)] }

theorem Inside.plan (hi : σ.Inv) (hnext : ∀ p ∈ σ.planned, p.1 < input) {k : UInt64}
    (h : σ.Inside k) : (σ.planAs ltr holds input keyframe).Inside k := by
  refine ⟨List.mem_append_left _ h.1, fun f hf hkey => ?_⟩
  rcases List.mem_append.mp hkey with hold | hnew
  · exact h.2 f hf hold
  · -- What went out was planned before.
    obtain ⟨b, hb⟩ := hi.out f hf
    have hlt := hnext _ hb
    cases List.mem_singleton.mp hnew
    exact absurd hlt (UInt64.lt_irrefl _)

theorem inside_planned (hi : σ.Inv) (hnext : ∀ p ∈ σ.planned, p.1 < input) :
    (σ.planAs ltr holds input true).Inside input := by
  refine ⟨List.mem_append_right _ (List.mem_singleton_self _), fun f hf _ => ?_⟩
  obtain ⟨b, hb⟩ := hi.out f hf
  exact hnext _ hb

theorem Covered.plan (hi : σ.Inv) (hnext : ∀ p ∈ σ.planned, p.1 < input)
    (hp : ∃ b, (i, b) ∈ σ.planned) (hholds : keyframe = false → holds s = σ.holds s)
    (h : σ.Covered s i) : (σ.planAs ltr holds input keyframe).Covered s i := by
  obtain ⟨b, hb⟩ := hp
  cases keyframe with
  | true => exact .inr ⟨input, inside_planned hi hnext, UInt64.le_of_lt (hnext _ hb)⟩
  | false =>
    rcases h with h | ⟨k, hk, hik⟩
    · exact .inl (by rw [← h]; exact hholds rfl)
    · exact .inr ⟨k, hk.plan hi hnext, hik⟩

theorem Inv.plan (hi : σ.Inv) (hnext : ∀ p ∈ σ.planned, p.1 < input)
    (hslots : ∀ s f b, ltr.slots s = some (f, b) → σ.ltr.slots s = some (f, b) ∧
      (keyframe = false → holds s = σ.holds s))
    (hmarking : ∀ m ∈ ltr.marking, ltr.slots m.2 = none ∧
      (m ∈ σ.ltr.marking ∧ (keyframe = false → holds m.2 = σ.holds m.2) ∨
        m.1 = input ∧ (keyframe = false → holds m.2 = some input)))
    (hapart : ∀ m ∈ ltr.marking, ∀ m' ∈ ltr.marking, m.2 = m'.2 → m = m')
    (hholds : ∀ s i, holds s = some i → keyframe = false ∧ (i = input ∨ σ.holds s = some i)) :
    (σ.planAs ltr holds input keyframe).Inv where
  unique i b c hb hc := by
    -- An input is planned once: the new one is past all before it.
    rcases List.mem_append.mp hb with hb | hb <;> rcases List.mem_append.mp hc with hc | hc
    · exact hi.unique i b c hb hc
    · cases List.mem_singleton.mp hc
      exact absurd (hnext _ hb) (UInt64.lt_irrefl _)
    · cases List.mem_singleton.mp hb
      exact absurd (hnext _ hc) (UInt64.lt_irrefl _)
    · cases List.mem_singleton.mp hb
      cases List.mem_singleton.mp hc
      rfl
  out f hf := by
    obtain ⟨b, hb⟩ := hi.out f hf
    exact ⟨b, List.mem_append_left _ hb⟩
  kept s f b h := by
    obtain ⟨hold, hh⟩ := hslots s f b h
    obtain ⟨i, hf, hc, hcov⟩ := hi.kept s f b hold
    exact ⟨i, hf, hc, hcov.plan hi hnext (hi.out _ hf) hh⟩
  marked m hm := by
    obtain ⟨hnone, ⟨hold, hh⟩ | ⟨hin, hh⟩⟩ := hmarking m hm
    · obtain ⟨⟨b, hb⟩, -, hcov⟩ := hi.marked m hold
      exact ⟨⟨b, List.mem_append_left _ hb⟩, hnone, hcov.plan hi hnext ⟨b, hb⟩ hh⟩
    · refine ⟨⟨keyframe, ?_⟩, hnone, ?_⟩
      · rw [hin]
        exact List.mem_append_right _ (List.mem_singleton_self _)
      · rw [hin]
        cases keyframe with
        | false => exact .inl (hh rfl)
        | true => exact .inr ⟨input, inside_planned hi hnext, UInt64.le_refl _⟩
  apart := hapart
  held s i h k hk := by
    obtain ⟨hkey, hin⟩ := hholds s i h
    subst hkey
    rcases List.mem_append.mp hk with hold | hnew
    · rcases hin with hin | hin
      · rw [hin]
        exact hnext _ hold
      · exact hi.held s i hin k hold
    · cases List.mem_singleton.mp hnew

theorem Inv.plan_quiet (hi : σ.Inv) (hnext : ∀ p ∈ σ.planned, p.1 < input)
    (hslots : ltr.slots = σ.ltr.slots) (hmarking : ltr.marking = σ.ltr.marking)
    (hholds : holds = if keyframe then fun _ => none else σ.holds) :
    (σ.planAs ltr holds input keyframe).Inv := by
  subst hholds
  refine hi.plan hnext (fun s f b h => ⟨by rw [← hslots, h], fun hk => by rw [hk]; rfl⟩)
    (fun m hm => ?_) (by rw [hmarking]; exact hi.apart) fun s i h => ?_
  · rw [hmarking] at hm
    exact ⟨by rw [hslots]; exact (hi.marked m hm).2.1, .inl ⟨hm, fun hk => by rw [hk]; rfl⟩⟩
  · cases keyframe with
    | true => cases h
    | false => exact ⟨rfl, .inr h⟩

theorem Inv.plan_mark (hi : σ.Inv) (hnext : ∀ p ∈ σ.planned, p.1 < input) {slot : Fin slotCount}
    (hfree : ∀ m ∈ σ.ltr.marking, m.2 ≠ slot)
    (hslots : ltr.slots = Function.update σ.ltr.slots slot none)
    (hmarking : ltr.marking = σ.ltr.marking ++ [(input, slot)])
    (hholds : holds = if keyframe then fun _ => none
      else fun s => if s = slot then some input else σ.holds s) :
    (σ.planAs ltr holds input keyframe).Inv := by
  have hold : ∀ s, s ≠ slot → keyframe = false → holds s = σ.holds s := by
    intro s hne hk
    rw [hholds, hk, if_neg Bool.false_ne_true, if_neg hne]
  -- The slot marked is emptied, and no mark inside is for it, so the two marks stay apart.
  refine hi.plan hnext (fun s f b h => ?_) (fun m hm => ?_) (fun m hm m' hm' heq => ?_) (fun s i h => ?_)
  · rw [hslots] at h
    have hne : s ≠ slot := by
      rintro rfl
      rw [Function.update_self] at h
      cases h
    rw [Function.update_of_ne hne] at h
    exact ⟨h, hold s hne⟩
  · rw [hslots]
    rw [hmarking] at hm
    rcases List.mem_append.mp hm with hm | hm
    · have hne := hfree m hm
      rw [Function.update_of_ne hne]
      exact ⟨(hi.marked m hm).2.1, .inl ⟨hm, hold m.2 hne⟩⟩
    · cases List.mem_singleton.mp hm
      refine ⟨Function.update_self _ _ _, .inr ⟨rfl, fun hk => ?_⟩⟩
      rw [hholds, hk, if_neg Bool.false_ne_true, if_pos rfl]
  · rw [hmarking] at hm hm'
    rcases List.mem_append.mp hm with hm | hm <;> rcases List.mem_append.mp hm' with hm' | hm'
    · exact hi.apart m hm m' hm' heq
    · cases List.mem_singleton.mp hm'
      exact absurd heq (hfree m hm)
    · cases List.mem_singleton.mp hm
      exact absurd heq.symm (hfree m' hm')
    · cases List.mem_singleton.mp hm
      cases List.mem_singleton.mp hm'
      rfl
  · rw [hholds] at h
    cases keyframe with
    | true => cases h
    | false =>
      refine ⟨rfl, ?_⟩
      by_cases hs : s = slot
      · exact .inl (Option.some.inj ((if_pos hs).symm.trans h)).symm
      · exact .inr ((if_neg hs).symm.trans h)

end

theorem markOf_encode (slot s : Fin slotCount) :
    markOf (.encode (some (UInt32.ofNat slot)) none) s = decide (s = slot) := by
  revert slot s
  decide

theorem step_plan (σ : Coding) (recover key own : Bool) (now : ℕ) : σ.step (.plan input recover key own now) =
      σ.planAs (σ.ltr.plan input recover key now).1
        (if key || own || (σ.ltr.plan input recover key now).2 = .keyframe then fun _ => none
          else fun s =>
            if markOf (σ.ltr.plan input recover key now).2 s then some input else σ.holds s)
        input (key || own || (σ.ltr.plan input recover key now).2 = .keyframe) := rfl

theorem Inv.step_plan (hi : σ.Inv) {recover key own : Bool} {now : ℕ}
    (hnext : ∀ p ∈ σ.planned, p.1 < input)
    (hprompt : σ.Prompt (.plan input recover key own now)) :
    (σ.step (.plan input recover key own now)).Inv := by
  rw [Coding.step_plan]
  -- Unless it marks, the plan touches neither slots nor marks.
  by_cases hmark : key = false ∧ recover = false ∧ (σ.ltr.last_mark.any fun t => now - t < Ltr.every) = false
  · obtain ⟨rfl, rfl, hdue⟩ := hmark
    have hfree := hprompt.2 rfl rfl hdue
    rw [Ltr.plan_mark σ.ltr input hdue]
    simp only [markOf_encode, decide_eq_true_eq]
    exact hi.plan_mark hnext hfree rfl rfl rfl
  · obtain ⟨hslots, hmarking, hplan⟩ := σ.ltr.plan_of_not_mark input hmark
    refine hi.plan_quiet hnext hslots hmarking ?_
    have hnone : ∀ s, markOf (σ.ltr.plan input recover key now).2 s = false := by
      intro s
      rcases hplan with h | ⟨from_, h⟩
      · rw [h]
        rfl
      · rw [h]
        rfl
    simp only [hnone, Bool.false_eq_true, if_false]

/-! ## Outputs and confirmations -/

theorem Covered.sent {frame_id : UInt32} {skip : ℕ} {ltr : Ltr} (h : σ.Covered s i)
    (hin : ∀ k, (input, true) ∈ σ.planned → i ≤ k → input < k) :
    Covered { σ with ltr, passed := skip, frames := σ.frames ++ [(input, frame_id)] } s i := by
  rcases h with h | ⟨k, hk, hik⟩
  · exact .inl h
  · refine .inr ⟨k, ⟨hk.1, fun f hf hkey => ?_⟩, hik⟩
    rcases List.mem_append.mp hf with hf | hf
    · exact hk.2 f hf hkey
    · cases List.mem_singleton.mp hf
      exact hin k hkey hik

theorem Inv.step_sent (hi : σ.Inv) (skip : ℕ) (frame_id : UInt32) : (σ.step (.sent skip frame_id)).Inv := by
  unfold step
  dsimp only
  split
  · exact hi
  next input keyframe hout =>
    have hplanned : (input, keyframe) ∈ σ.planned := List.mem_of_getElem? hout
    have hlater : ∀ i, input < i → ∀ k, (input, true) ∈ σ.planned → i ≤ k → input < k :=
      fun i hlt k _ hik => UInt64.lt_of_lt_of_le hlt hik
    have hplain : keyframe = false → ∀ i k, (input, true) ∈ σ.planned → i ≤ k → input < k :=
      fun hk i k hkey _ => absurd (hi.unique input true keyframe hkey hplanned) (by simp [hk])
    refine ⟨hi.unique, fun f hf => ?_, fun s f b h => ?_, fun m hm => ?_, fun m hm m' hm' => ?_, hi.held⟩
    · rcases List.mem_append.mp hf with hf | hf
      · exact hi.out f hf
      · cases List.mem_singleton.mp hf
        exact ⟨keyframe, hplanned⟩
    · rw [Ltr.slots_sent] at h
      cases keyframe with
      | true => cases h
      | false =>
        rw [if_neg Bool.false_ne_true] at h
        split_ifs at h with hkept
        · -- The picture is the one that the slot was marked for.
          cases h
          obtain ⟨m, hfind, rfl⟩ := Option.map_eq_some_iff.mp hkept
          have hinput : m.1 = input := by simpa using List.find?_some hfind
          obtain ⟨-, -, hcov⟩ := hi.marked m (List.mem_of_find?_eq_some hfind)
          rw [hinput] at hcov
          exact ⟨input, List.mem_append_right _ (List.mem_singleton_self _), Bool.noConfusion,
            hcov.sent (hplain rfl input)⟩
        · obtain ⟨i, hf, hc, hcov⟩ := hi.kept s f b h
          exact ⟨i, List.mem_append_left _ hf, hc, hcov.sent (hplain rfl i)⟩
    · -- A mark that stays is of a later input, so its slot was not filled now.
      obtain ⟨hold, hlt⟩ := Ltr.mem_marking_sent hm
      obtain ⟨hp, hnone, hcov⟩ := hi.marked m hold
      refine ⟨hp, ?_, hcov.sent (hlater m.1 hlt)⟩
      rw [Ltr.slots_sent]
      split_ifs with hk hkept
      · rfl
      · obtain ⟨m', hfind, hslot⟩ := Option.map_eq_some_iff.mp hkept
        have hinput : m'.1 = input := by simpa using List.find?_some hfind
        have heq := hi.apart m' (List.mem_of_find?_eq_some hfind) m hold hslot
        rw [← hinput, heq] at hlt
        exact absurd hlt (UInt64.lt_irrefl _)
      · exact hnone
    · exact hi.apart m (Ltr.mem_marking_sent hm).1 m' (Ltr.mem_marking_sent hm').1

theorem Inv.step_acked (hi : σ.Inv) (frame_id : UInt32) : (σ.step (.acked frame_id)).Inv where
  unique := hi.unique
  out := hi.out
  kept s f b h := by
    rw [step, Ltr.slots_acked] at h
    obtain ⟨⟨f0, b0⟩, hslot, he⟩ := Option.map_eq_some_iff.mp h
    obtain ⟨i, hf, hc, hcov⟩ := hi.kept s f0 b0 hslot
    dsimp only at he
    split_ifs at he with hid
    · cases he
      refine ⟨i, hf, fun _ => List.mem_append_right _ ?_, hcov⟩
      rw [beq_iff_eq.mp hid]
      exact List.mem_singleton_self _
    · cases he
      exact ⟨i, hf, fun hb => List.mem_append_left _ (hc hb), hcov⟩
  marked m hm := by
    rw [step, Ltr.marking_acked] at hm
    obtain ⟨hp, hnone, hcov⟩ := hi.marked m hm
    refine ⟨hp, ?_, hcov⟩
    rw [step, Ltr.slots_acked, hnone]
    rfl
  apart m hm m' hm' := by
    rw [step, Ltr.marking_acked] at hm hm'
    exact hi.apart m hm m' hm'
  held := hi.held

theorem Inv.step (hi : σ.Inv) {a : Action} (hnext : σ.Next a) (hprompt : σ.Prompt a) : (σ.step a).Inv := by
  cases a with
  | plan input recover key own now => exact hi.step_plan hnext hprompt
  | sent skip frame_id => exact hi.step_sent skip frame_id
  | acked frame_id => exact hi.step_acked frame_id

end Coding

theorem mask_inj (s s' : Fin slotCount)
    (h : (1 <<< UInt32.ofNat s : UInt32) = 1 <<< UInt32.ofNat s') : s = s' := by
  revert s s'
  decide

theorem Ltr.slots_of_repair {l : Ltr} {input : UInt64} {recover key : Bool} {now : ℕ}
    {mark : Option UInt32} {s : Fin slotCount}
    (h : (l.plan input recover key now).2 = .encode mark (some (1 <<< UInt32.ofNat s))) :
    key = false ∧ recover = true ∧ ∃ f, l.slots s = some (f, true) := by
  unfold plan at h
  cases key with
  | true =>
    rw [if_pos rfl] at h
    cases recover <;> cases h
  | false =>
    rw [if_neg Bool.false_ne_true] at h
    cases recover with
    | true =>
      refine ⟨rfl, rfl, ?_⟩
      rw [if_pos rfl] at h
      dsimp only at h
      split at h
      next f slot hnewest =>
        split_ifs at h
        · cases mask_inj slot s (Option.some.inj (LtrPlan.encode.inj h).2)
          exact ⟨f, slots_of_mem_confirmed (mem_confirmed_of_newest hnewest)⟩
      · cases h
    | false =>
      rw [if_neg Bool.false_ne_true] at h
      split_ifs at h <;> cases h

/-- In every run in which pictures come out in time, a repair is coded from a slot whose picture, once
every picture planned before is coded, went out as a frame that the client confirmed, with no keyframe
planned after it. -/
theorem repair_from_confirmed (repair_ok : Bool) (as : List Action) (input : UInt64)
    (recover key own : Bool) (now : ℕ)
    (hnext : Along Coding.step Coding.Next (.new repair_ok) (as ++ [.plan input recover key own now]))
    (hprompt : Along Coding.step Coding.Prompt (.new repair_ok) (as ++ [.plan input recover key own now]))
    (mark : Option UInt32) (s : Fin slotCount)
    (hrepair : ((run Coding.step (.new repair_ok) as).ltr.plan input recover key now).2 =
      .encode mark (some (1 <<< UInt32.ofNat s))) :
    (run Coding.step (.new repair_ok) as).Had s := by
  obtain ⟨hnexts, -⟩ := along_append.mp hnext
  obtain ⟨hprompts, hlast, -⟩ := along_append.mp hprompt
  have hi : (run Coding.step (.new repair_ok) as).Inv :=
    invariant_along Coding.Inv (Coding.inv_new repair_ok) (fun σ a hi h => hi.step h.1 h.2)
      (along_and.mpr ⟨hnexts, hprompts⟩)
  obtain ⟨hkey, hrecover, f, hslot⟩ := Ltr.slots_of_repair hrepair
  have hnone := hlast.1 hkey hrecover (Ltr.confirmed_ne_nil hslot)
  obtain ⟨i, hframe, hconfirmed, hcov⟩ := hi.kept s f true hslot
  rcases hcov with hholds | ⟨k, hk, -⟩
  · exact ⟨i, f, hholds, hframe, hconfirmed rfl, hi.held s i hholds⟩
  · exact absurd hk (hnone _ hk.1)

/-- A picture is kept, goes out and is confirmed; then a loss is repaired from it. -/
theorem repair_from_confirmed_once :
    (run Coding.step (.new true) [.plan 1 false false false 0, .sent 0 10, .acked 10]).Had 0 :=
  repair_from_confirmed true [.plan 1 false false false 0, .sent 0 10, .acked 10] 2 true false false
    300000000 (by decide) (by decide) none 0 (by decide)

/-- With a keyframe still in the encoder, a repair is planned from a slot that the keyframe emptied. -/
theorem repair_from_emptied :
    let as := [.plan 1 false false false 0, .sent 0 10, .acked 10, .plan 2 false true false 100000000]
    Along Coding.step Coding.Next (.new true) (as ++ [.plan 3 true false false 200000000]) ∧
      ((run Coding.step (.new true) as).ltr.plan 3 true false 200000000).2 = .encode none (some 1) ∧
      ¬ (run Coding.step (.new true) as).Had 0 := by
  refine ⟨by decide, by decide, ?_⟩
  rintro ⟨i, f, hholds, -⟩
  cases hholds

end Rdpio.Hyper.LongTerm
